import Lisplet.Eval
import Lisplet.Proofs.Depth
import Lisplet.Proofs.Parameters
import Lisplet.Proofs.Resolution

/-!
# The rules of evaluation

The meaning of forms as a relation between a store, a frame and a form on one side, and a result and
a store on the other. No rule knows of a depth limit. A result is a value or a fault; a rule for a
fault keeps the store that the failing part left, so that effects made before the fault stay. The rules
say themselves how keywords are written, which values are false and what the body of a closure is, and
ask no function of the evaluator for it.

Main definitions: `Keyword.Written`, `Keyword.Takes`, `Keyword.Expects`, `Evaluates`, `EvaluatesAll`,
`EvaluatesLast`, `Follows`, `Applies`.
-/

namespace Lisplet

/-- A fault that shows a value is made from the description of the value, unless describing the value
fails itself. -/
inductive Shows (v : Value) (make : String → Fault) : Fault → Prop where
  | shown {text : String} : Settles (v.describe ·) (.ok text) → Shows v make (make text)
  | unshowable {f : Fault} : Settles (v.describe ·) (.error f) → Shows v make f

/-- How the keywords are written. -/
inductive Keyword.Written : Keyword → String → Prop where
  | quote : Written .quote "quote"
  | cond : Written .cond "if"
  | assign : Written .assign "set!"
  | define : Written .define "define"
  | lambda : Written .lambda "lambda"
  | begin : Written .begin "begin"

/-- The numbers of operands that a keyword takes. -/
def Keyword.Takes : Keyword → Nat → Prop
  | .quote, n => n = 1
  | .cond, n => n = 2 ∨ n = 3
  | .assign, n | .define, n => n = 2
  | .lambda, n => 2 ≤ n
  | .begin, _ => True

/-- The number of operands that is named as expected if there are too few or too many of them. -/
def Keyword.Expects : Keyword → Nat → Prop
  | .quote, n => n = 1
  | .cond, n => n = 3
  | .assign, n | .define, n | .lambda, n => n = 2
  | .begin, _ => False

/-- The values that stand for themselves: all but symbols and lists. -/
def Value.IsAtom (v : Value) : Prop :=
  v.kind ≠ .symbol ∧ v.kind ≠ .list

/-- The values that can be applied. -/
def Value.IsProcedure (v : Value) : Prop :=
  v.kind = .primitive ∨ v.kind = .closure

/-- Whether a list that begins with this value is a special form. -/
def Value.IsKeyword (v : Value) : Prop :=
  ∃ k x, Keyword.Written k x ∧ v = .symbol x

/-! ## The rules -/

mutual

/-- In the store `s` and the frame `i`, the form evaluates to a result and leaves a store. -/
inductive Evaluates : Store → FrameId → Value → Except Fault Value → Store → Prop where
  /-- A symbol has the value that the nearest frame binds it to. -/
  | symbol {s : Store} {i j : FrameId} {x : String} {v : Value} :
      Resolves s x i j → s.get? j x = some v → Evaluates s i (.symbol x) (.ok v) s
  /-- A symbol that no frame of the chain binds is unbound. -/
  | unbound {s : Store} {i : FrameId} {x : String} :
      Unresolved s x i → Evaluates s i (.symbol x) (.error (.unbound x)) s
  /-- Everything else that is no list stands for itself. -/
  | atom {s : Store} {i : FrameId} {v : Value} :
      v.IsAtom → Evaluates s i v (.ok v) s
  /-- The empty list has no procedure to apply. -/
  | nothing {s : Store} {i : FrameId} {id : Option ObjectId} {f : Fault} :
      Shows (.list id []) (.notCallable (.list id [])) f →
      Evaluates s i (.list id []) (.error f) s
  /-- A list that begins with a keyword follows the rule of the keyword; the keyword itself is not
  evaluated. -/
  | special {s s' : Store} {i : FrameId} {id : Option ObjectId} {k : Keyword} {x : String}
      {ops : List Value} {r : Except Fault Value} :
      k.Written x → Follows k s i ops r s' → Evaluates s i (.list id (.symbol x :: ops)) r s'
  /-- In every other list all items are evaluated, from left to right, and then the first value is
  applied to the others. -/
  | application {s s₁ s₂ : Store} {i : FrameId} {id : Option ObjectId} {head procedure : Value}
      {ops args : List Value} {r : Except Fault Value} :
      ¬ head.IsKeyword → EvaluatesAll s i (head :: ops) (.ok (procedure :: args)) s₁ →
      Applies s₁ procedure args r s₂ → Evaluates s i (.list id (head :: ops)) r s₂
  /-- Nothing is applied if an item fails. -/
  | itemFails {s s₁ : Store} {i : FrameId} {id : Option ObjectId} {head : Value} {ops : List Value}
      {f : Fault} :
      ¬ head.IsKeyword → EvaluatesAll s i (head :: ops) (.error f) s₁ →
      Evaluates s i (.list id (head :: ops)) (.error f) s₁

/-- Forms evaluate from left to right to their values, or to the fault of the first that fails. -/
inductive EvaluatesAll :
    Store → FrameId → List Value → Except Fault (List Value) → Store → Prop where
  | nil {s : Store} {i : FrameId} : EvaluatesAll s i [] (.ok []) s
  | cons {s s₁ s₂ : Store} {i : FrameId} {form v : Value} {forms vs : List Value} :
      Evaluates s i form (.ok v) s₁ → EvaluatesAll s₁ i forms (.ok vs) s₂ →
      EvaluatesAll s i (form :: forms) (.ok (v :: vs)) s₂
  | headFails {s s₁ : Store} {i : FrameId} {form : Value} {forms : List Value} {f : Fault} :
      Evaluates s i form (.error f) s₁ → EvaluatesAll s i (form :: forms) (.error f) s₁
  | tailFails {s s₁ s₂ : Store} {i : FrameId} {form v : Value} {forms : List Value} {f : Fault} :
      Evaluates s i form (.ok v) s₁ → EvaluatesAll s₁ i forms (.error f) s₂ →
      EvaluatesAll s i (form :: forms) (.error f) s₂

/-- Forms evaluate from left to right to the value of the last, or to the fault of the first that
fails; without forms the result is the value that is given. -/
inductive EvaluatesLast :
    Store → FrameId → Value → List Value → Except Fault Value → Store → Prop where
  | nil {s : Store} {i : FrameId} {last : Value} : EvaluatesLast s i last [] (.ok last) s
  | cons {s s₁ s₂ : Store} {i : FrameId} {last form v : Value} {forms : List Value}
      {r : Except Fault Value} :
      Evaluates s i form (.ok v) s₁ → EvaluatesLast s₁ i v forms r s₂ →
      EvaluatesLast s i last (form :: forms) r s₂
  | fails {s s₁ : Store} {i : FrameId} {last form : Value} {forms : List Value} {f : Fault} :
      Evaluates s i form (.error f) s₁ → EvaluatesLast s i last (form :: forms) (.error f) s₁

/-- The rule of a keyword, on the operands that follow it. -/
inductive Follows :
    Keyword → Store → FrameId → List Value → Except Fault Value → Store → Prop where
  /-- The number of operands is checked before anything else. -/
  | misused {k : Keyword} {s : Store} {i : FrameId} {ops : List Value} {x : String} {n : Nat} :
      k.Written x → k.Expects n → ¬ k.Takes ops.length →
      Follows k s i ops (.error (.arity (some x) n ops.length)) s
  /-- `(quote v)` is `v`. -/
  | quote {s : Store} {i : FrameId} {v : Value} : Follows .quote s i [v] (.ok v) s
  /-- `(if test yes)` and `(if test yes no)` fail if the test fails. -/
  | testFails {s s₁ : Store} {i : FrameId} {test yes : Value} {no : List Value} {f : Fault} :
      no.length ≤ 1 → Evaluates s i test (.error f) s₁ →
      Follows .cond s i (test :: yes :: no) (.error f) s₁
  /-- They are `yes` if the test gives any value but false and no value; zero and the empty list count
  as true. -/
  | testHolds {s s₁ s₂ : Store} {i : FrameId} {test yes v : Value} {no : List Value}
      {r : Except Fault Value} :
      no.length ≤ 1 → Evaluates s i test (.ok v) s₁ → v ≠ .bool false → v ≠ .noValue →
      Evaluates s₁ i yes r s₂ → Follows .cond s i (test :: yes :: no) r s₂
  /-- Otherwise they are `no`. -/
  | otherwise {s s₁ s₂ : Store} {i : FrameId} {test yes no v : Value} {r : Except Fault Value} :
      Evaluates s i test (.ok v) s₁ → v = .bool false ∨ v = .noValue → Evaluates s₁ i no r s₂ →
      Follows .cond s i [test, yes, no] r s₂
  /-- Without `no` they have no value then. -/
  | missing {s s₁ : Store} {i : FrameId} {test yes v : Value} :
      Evaluates s i test (.ok v) s₁ → v = .bool false ∨ v = .noValue →
      Follows .cond s i [test, yes] (.ok .noValue) s₁
  /-- The target of `set!` and of `define` must be a symbol; the form after it is not evaluated if it
  is none. -/
  | badTarget {k : Keyword} {s : Store} {i : FrameId} {target form : Value} {f : Fault} :
      k = .assign ∨ k = .define → target.name? = none → Shows target (.badTarget k) f →
      Follows k s i [target, form] (.error f) s
  /-- Nothing is bound if the form after the target fails. -/
  | formFails {k : Keyword} {s s₁ : Store} {i : FrameId} {x : String} {form : Value} {f : Fault} :
      k = .assign ∨ k = .define → Evaluates s i form (.error f) s₁ →
      Follows k s i [.symbol x, form] (.error f) s₁
  /-- `(set! x form)` binds `x` in the frame that owns it once the form is evaluated. -/
  | assign {s s₁ : Store} {i j : FrameId} {x : String} {form v : Value} :
      Evaluates s i form (.ok v) s₁ → Resolves s₁ x i j →
      Follows .assign s i [.symbol x, form] (.ok .noValue) (s₁.bind j x v)
  /-- It fails if no frame owns `x` then, and the effects of the form stay. -/
  | assignUnbound {s s₁ : Store} {i : FrameId} {x : String} {form v : Value} :
      Evaluates s i form (.ok v) s₁ → Unresolved s₁ x i →
      Follows .assign s i [.symbol x, form] (.error (.unbound x)) s₁
  /-- `(define x form)` binds `x` in the current frame. -/
  | define {s s₁ : Store} {i : FrameId} {x : String} {form v : Value} :
      Evaluates s i form (.ok v) s₁ →
      Follows .define s i [.symbol x, form] (.ok .noValue) (s₁.bind i x v)
  /-- `(lambda (x …) form)` is a new closure over the current frame itself, and the form is its body. -/
  | lambda {s : Store} {i : FrameId} {id : Option ObjectId} {names : List String} {form : Value} :
      Follows .lambda s i [.list id (symbols names), form]
        (.ok (.closure s.objects (symbols names) form i)) s.addObject.2
  /-- In `(lambda (x …) form next …)` the body is `(begin form next …)`. -/
  | lambdaBegin {s : Store} {i : FrameId} {id : Option ObjectId} {names : List String}
      {form next : Value} {forms : List Value} :
      Follows .lambda s i (.list id (symbols names) :: form :: next :: forms)
        (.ok (.closure s.objects (symbols names)
          (.literal (.symbol "begin" :: form :: next :: forms)) i)) s.addObject.2
  /-- Its parameters must be a list of symbols. -/
  | badParameters {s : Store} {i : FrameId} {params form : Value} {forms : List Value} {f : Fault} :
      (∀ id names, params ≠ .list id (symbols names)) → Shows params .badParameters f →
      Follows .lambda s i (params :: form :: forms) (.error f) s
  /-- `(begin form …)` evaluates the forms in turn. -/
  | begin {s s' : Store} {i : FrameId} {ops : List Value} {r : Except Fault Value} :
      EvaluatesLast s i .noValue ops r s' → Follows .begin s i ops r s'

/-- Applying a value to arguments. -/
inductive Applies : Store → Value → List Value → Except Fault Value → Store → Prop where
  /-- A primitive computes its result, and may give a list that it makes the next identity. -/
  | primitive {s : Store} {p : Primitive} {home : FrameId} {args : List Value}
      {r : Except Fault Value} :
      Settles (p.call · s.objects args) r →
      Applies s (.primitive p home) args r s.addObject.2
  /-- The body of a closure is evaluated in a new frame inside the captured one, which binds the
  parameters to the arguments. -/
  | closure {s s' : Store} {id : ObjectId} {names : List String} {body : Value}
      {captured : FrameId} {args : List Value} {r : Except Fault Value} :
      args.length = names.length →
      Evaluates (s.addFrame (Bindings.ofPairs (names.zip args)) (some captured)).2 s.frames.size
        body r s' →
      Applies s (.closure id (symbols names) body captured) args r s'
  /-- There must be as many arguments as parameters. -/
  | miscounted {s : Store} {id : ObjectId} {formals : List Value} {body : Value}
      {captured : FrameId} {args : List Value} :
      args.length ≠ formals.length →
      Applies s (.closure id formals body captured) args
        (.error (.arity (some "lambda") formals.length args.length)) s
  /-- A closure that was handed in may have parameters that are no symbols. A list among them is
  noticed first. -/
  | listFormal {s : Store} {id : ObjectId} {formals : List Value} {body : Value}
      {captured : FrameId} {args : List Value} :
      args.length = formals.length → (∃ id items, .list id items ∈ formals) →
      Applies s (.closure id formals body captured) args (.error .listAsKey) s
  /-- Otherwise the first parameter that is no symbol cannot be bound. -/
  | badFormal {s : Store} {id : ObjectId} {names : List String} {bad : Value}
      {later : List Value} {body : Value} {captured : FrameId} {args : List Value} {f : Fault} :
      args.length = (symbols names ++ bad :: later).length →
      (∀ id items, .list id items ∉ symbols names ++ bad :: later) → bad.name? = none →
      Shows bad .cannotBind f →
      Applies s (.closure id (symbols names ++ bad :: later) body captured) args (.error f) s
  /-- Nothing else can be applied. -/
  | notCallable {s : Store} {v : Value} {args : List Value} {f : Fault} :
      ¬ v.IsProcedure → Shows v (.notCallable v) f → Applies s v args (.error f) s

end

end Lisplet
