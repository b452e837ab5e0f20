import Lisplet.Primitive.Call
import Lisplet.Scope

/-!
# Evaluation

A symbol evaluates to its value, a list that begins with a keyword follows the keyword's rule, every
other list is the application of its first item to the others, and everything else evaluates to
itself. Items of an application are evaluated from left to right before anything is applied.

The depth limit counts nested steps: one for evaluating a form, one more inside the items of an
application or the rule of a keyword, and two for calling a procedure. A call in last position costs
the same as any other. The limit of `evaluate` is the depth that is left where it is called: whatever
was entered before, by a session or another caller, is not charged to it.

Main definitions: `evalStep`, `eval`, `apply`, `Keyword.run`, `evaluate`, and `runKeyword` and
`applyValue`, which do one part alone.
-/

namespace Lisplet

/-- A way to evaluate forms in frames. -/
abbrev Evaluator := Value → FrameId → Run Value

/-- Evaluates forms from left to right. -/
def evalAll (ev : Evaluator) (i : FrameId) : List Value → Run (List Value)
  | [] => pure []
  | form :: forms => do
    let v ← ev form i
    let vs ← evalAll ev i forms
    pure (v :: vs)

/-- Evaluates forms from left to right and gives the last value, or `last` if there are no forms. -/
def evalLast (ev : Evaluator) (i : FrameId) (last : Value) : List Value → Run Value
  | [] => pure last
  | form :: forms => do
    let v ← ev form i
    evalLast ev i v forms

/-! ## Keywords -/

namespace Keyword

/-- The number of operands that is reported as expected. -/
def operands : Keyword → Nat
  | .quote => 1
  | .cond => 3
  | .assign => 2
  | .define => 2
  | .lambda => 2
  | .begin => 0

/-- The fault of a keyword with so many operands. -/
def misused (k : Keyword) (received : Nat) : Run Value :=
  Run.fault (.arity (some k.name) k.operands received)

/-- The operand itself. -/
def runQuote : List Value → Run Value
  | [v] => pure v
  | ops => quote.misused ops.length

/-- The second or the third operand, as the first one holds or fails; nothing in place of a third
operand that is missing. -/
def runCond (ev : Evaluator) (i : FrameId) : List Value → Run Value
  | [test, yes] => do
    let v ← ev test i
    if v.isTrue then ev yes i else pure .noValue
  | [test, yes, no] => do
    let v ← ev test i
    if v.isTrue then ev yes i else ev no i
  | ops => cond.misused ops.length

/-- Gives the symbol a new value in the frame that owns it, which is sought only after the value is
known. -/
def runAssign (limit : Nat) (ev : Evaluator) (i : FrameId) : List Value → Run Value
  | [.symbol x, form] => do
    let v ← ev form i
    Scope.assign i x v
    pure .noValue
  | [target, _] => Run.faultShowing limit target (.badTarget assign)
  | ops => assign.misused ops.length

/-- Binds the symbol in the current frame. -/
def runDefine (limit : Nat) (ev : Evaluator) (i : FrameId) : List Value → Run Value
  | [.symbol x, form] => do
    let v ← ev form i
    Scope.define i x v
    pure .noValue
  | [target, _] => Run.faultShowing limit target (.badTarget define)
  | ops => define.misused ops.length

/-- Makes a closure over the current frame. -/
def runLambda (limit : Nat) (i : FrameId) : List Value → Run Value
  | params :: form :: forms =>
    match params with
    | .list _ formals =>
      if formals.all (·.name?.isSome) then do
        Run.report limit (.closureMade formals.length)
        Run.update fun s => s.addClosure formals (Value.bodyOf (form :: forms)) i
      else Run.faultShowing limit params .badParameters
    | _ => Run.faultShowing limit params .badParameters
  | ops => lambda.misused ops.length

/-- The rule of each keyword. -/
def run (limit : Nat) (ev : Evaluator) (k : Keyword) (ops : List Value) (i : FrameId) : Run Value :=
  match k with
  | .quote => runQuote ops
  | .cond => runCond ev i ops
  | .assign => runAssign limit ev i ops
  | .define => runDefine limit ev i ops
  | .lambda => runLambda limit i ops
  | .begin => evalLast ev i .noValue ops

end Keyword

/-! ## Application -/

/-- Applies a value to arguments: the body of a closure is evaluated in a new frame, a primitive is
called, and nothing else can be applied. -/
def apply (limit : Nat) (ev : Evaluator) : Value → List Value → Run Value
  | .closure _ formals body captured, args => do
    let i ← Scope.makeFor limit formals args captured
    Run.report limit (.applied formals args.length)
    ev body i
  | .primitive p _, args => do
    let id ← Run.update Store.addObject
    Run.lift (p.call limit id args)
  | v, _ => Run.faultShowing limit v (.notCallable v)

/-! ## Forms -/

/-- One step of evaluation with `limit` units of depth left, where `deeper k` evaluates with `k`
units fewer. -/
def evalStep (limit : Nat) (deeper : Nat → Evaluator) : Evaluator
  | .symbol x, i => Scope.lookup i x
  | .list id [], _ => Run.faultShowing limit (.list id []) (.notCallable (.list id []))
  | .list _ (head :: operands), i =>
    match head.keyword? with
    | some k => do
      Run.report limit (.keyword k)
      k.run (limit - 1) (deeper 1) operands i
    | none => do
      let procedure ← deeper 1 head i
      let args ← evalAll (deeper 1) i operands
      apply (limit - 2) (deeper 2) procedure args
  | v, _ => pure v

/-- Evaluates a form in a frame, within a depth limit. -/
def eval : Nat → Evaluator
  | 0 => fun _ _ => Run.exhausted
  | limit + 1 => evalStep limit fun k => eval (limit - k)

/-- Evaluates a form in a frame, where reaching the depth limit is a fault. -/
def evaluate (limit : Nat) (form : Value) (i : FrameId) : Run Value :=
  (eval limit form i).guard .evaluating

/-- Follows the rule of a keyword on its own. -/
def runKeyword (limit : Nat) (k : Keyword) (ops : List Value) (i : FrameId) : Run Value :=
  k.run (limit - 1) (eval (limit - 1)) ops i

/-- Applies a value to arguments on its own. -/
def applyValue (limit : Nat) (v : Value) (args : List Value) : Run Value :=
  apply (limit - 2) (eval (limit - 2)) v args

end Lisplet
