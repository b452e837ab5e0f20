import Lisplet.Proofs.Overrun
import Lisplet.Proofs.Reading
import Lisplet.Source
import Mathlib.Logic.Relation

/-!
# The tasks of an evaluation

Evaluating a source is a tree of tasks: its forms are evaluated one after the other, a form follows the
rule of a keyword or evaluates its items and calls a procedure, and a call evaluates the body of a
closure. Here the tree is a relation: which task is started by which, and on which machine. So one can
speak of all that happens during a run, and not only of how it ends.

A task that fails has a fault of its own, or one that a task it started failed with. Hence every fault of
a run was raised somewhere in its tree, and what a single task can raise is told case by case.

Main definitions: `Task`, `Starts`, `Task.Complains`, `Task.Raises`. Main statements:
`Task.fault_cases`, `Task.fault_origin`.
-/

namespace Lisplet

/-- What the evaluator can be at. -/
inductive Task where
  /-- Evaluating every form of a source. -/
  | source (limit : Nat) (text : String) (i : FrameId)
  /-- Evaluating the first form of a source. -/
  | first (limit : Nat) (text : String) (i : FrameId)
  | form (limit : Nat) (form : Value) (i : FrameId)
  /-- Following the rule of a keyword. -/
  | rule (limit : Nat) (k : Keyword) (ops : List Value) (i : FrameId)
  /-- Applying a value to arguments. -/
  | call (limit : Nat) (v : Value) (args : List Value)

/-- The run of a task. -/
def Task.run : Task → Run Value
  | .source limit text i => evalSource limit text i
  | .first limit text i => evalFirst limit text i
  | .form limit e i => eval limit e i
  | .rule limit k ops i => k.run limit (eval limit) ops i
  | .call limit v args => apply limit (eval limit) v args

/-! ## Tasks that start others -/

/-- The first task, on its machine, comes to the second one, on the machine as it is by then. -/
inductive Starts : Task × Machine → Task × Machine → Prop where
  /-- A form of a source is read and evaluated when the forms before it have values. -/
  | read {limit : Nat} {text : String} {i : FrameId} {before after : List Value} {form v : Value}
      {m m₁ m₂ : Machine} :
      (readForms limit text).forms = before ++ form :: after →
      evalForms limit i .noValue before m = (.value v, m₁) →
      Run.report limit (.readForm form) m₁ = (.value (), m₂) →
      Starts (.source limit text i, m) (.form limit form i, m₂)
  | readFirst {limit : Nat} {text : String} {i : FrameId} {form : Value} {m m₁ : Machine} :
      parseFirst limit text m = (.value form, m₁) →
      Starts (.first limit text i, m) (.form limit form i, m₁)
  | special {limit : Nat} {id : Option ObjectId} {head : Value} {k : Keyword} {ops : List Value}
      {i : FrameId} {m m₁ : Machine} :
      head.keyword? = some k → Run.report limit (.keyword k) m = (.value (), m₁) →
      Starts (.form (limit + 1) (.list id (head :: ops)) i, m) (.rule (limit - 1) k ops i, m₁)
  /-- An item of an application is evaluated when the items before it have values. -/
  | item {limit : Nat} {id : Option ObjectId} {head : Value} {ops before after vs : List Value}
      {form : Value} {i : FrameId} {m m₁ : Machine} :
      head.keyword? = none → head :: ops = before ++ form :: after →
      evalAll (eval (limit - 1)) i before m = (.value vs, m₁) →
      Starts (.form (limit + 1) (.list id (head :: ops)) i, m) (.form (limit - 1) form i, m₁)
  /-- The first value is applied to the others when all items have values. -/
  | call {limit : Nat} {id : Option ObjectId} {head v : Value} {ops args : List Value}
      {i : FrameId} {m m₁ : Machine} :
      head.keyword? = none → evalAll (eval (limit - 1)) i (head :: ops) m = (.value (v :: args), m₁) →
      Starts (.form (limit + 1) (.list id (head :: ops)) i, m) (.call (limit - 2) v args, m₁)
  | test {limit : Nat} {test yes : Value} {no : List Value} {i : FrameId} {m : Machine} :
      no.length ≤ 1 → Starts (.rule limit .cond (test :: yes :: no) i, m) (.form limit test i, m)
  | yes {limit : Nat} {test yes v : Value} {no : List Value} {i : FrameId} {m m₁ : Machine} :
      no.length ≤ 1 → eval limit test i m = (.value v, m₁) → v.isTrue = true →
      Starts (.rule limit .cond (test :: yes :: no) i, m) (.form limit yes i, m₁)
  | no {limit : Nat} {test yes no v : Value} {i : FrameId} {m m₁ : Machine} :
      eval limit test i m = (.value v, m₁) → v.isTrue = false →
      Starts (.rule limit .cond [test, yes, no] i, m) (.form limit no i, m₁)
  /-- The form after the target of an assignment or a definition. -/
  | bound {limit : Nat} {k : Keyword} {x : String} {form : Value} {i : FrameId} {m : Machine} :
      k = .assign ∨ k = .define →
      Starts (.rule limit k [.symbol x, form] i, m) (.form limit form i, m)
  | begin {limit : Nat} {before after : List Value} {form v : Value} {i : FrameId}
      {m m₁ : Machine} :
      evalLast (eval limit) i .noValue before m = (.value v, m₁) →
      Starts (.rule limit .begin (before ++ form :: after) i, m) (.form limit form i, m₁)
  | body {limit : Nat} {id : ObjectId} {formals args : List Value} {body : Value}
      {captured i : FrameId} {m m₁ m₂ : Machine} :
      Scope.makeFor limit formals args captured m = (.value i, m₁) →
      Run.report limit (.applied formals args.length) m₁ = (.value (), m₂) →
      Starts (.call limit (.closure id formals body captured) args, m) (.form limit body i, m₂)

/-- The most tasks there can be in a row from a task on. -/
def Task.height : Task → Nat
  | .form limit _ _ => 2 * limit
  | .source limit .. | .first limit .. | .rule limit .. | .call limit .. => 2 * limit + 1

/-- A task is higher than those it starts, so the tree ends. -/
theorem Starts.height_lt {t t' : Task × Machine} (h : Starts t t') : t'.1.height < t.1.height := by
  cases h <;> simp only [Task.height] <;> omega

/-! ## What a task can raise -/

/-- The primitive does not take the value for an operand, and the fault about that shows it. -/
inductive Primitive.Rejects : Primitive → Value → (String → Fault) → Prop where
  | notInteger {p : Primitive} {v : Value} :
      p ∈ [.add, .sub, .mul, .div] → (∀ n, v ≠ .int n) → Rejects p v (.notInteger p)
  | notList {p : Primitive} {v : Value} :
      p ∈ [.length, .car, .cdr] → v.isList = false → Rejects p v (.notList p)

/-- The faults of calling a primitive with arguments. -/
inductive Primitive.Raises : Primitive → List Value → Fault → Prop where
  | arity {p : Primitive} {args : List Value} {n : Nat} :
      p.arity = some n → args.length ≠ n → Raises p args (.arity (some p.name) n args.length)
  | operand {p : Primitive} {args : List Value} {v : Value} {make : String → Fault} {f : Fault} :
      v ∈ args → p.Rejects v make → Shows v make f → Raises p args f
  | incomparable {r : Relation} {args : List Value} {a b : Kind} :
      Raises r.primitive args (.incomparable r.primitive a b)
  | divisionByZero {args : List Value} : Raises .div args (.divisionByZero .div)

/-- The task fails with a fault that shows the value. -/
inductive Task.Complains : Task → Value → (String → Fault) → Prop where
  | nothing {limit : Nat} {id : Option ObjectId} {i : FrameId} :
      Complains (.form (limit + 1) (.list id []) i) (.list id []) (.notCallable (.list id []))
  | target {limit : Nat} {k : Keyword} {target form : Value} {i : FrameId} :
      k = .assign ∨ k = .define → target.name? = none →
      Complains (.rule limit k [target, form] i) target (.badTarget k)
  | parameters {limit : Nat} {params form : Value} {forms : List Value} {i : FrameId} :
      (∀ id names, params ≠ .list id (symbols names)) →
      Complains (.rule limit .lambda (params :: form :: forms) i) params .badParameters
  | procedure {limit : Nat} {v : Value} {args : List Value} :
      ¬ v.IsProcedure → Complains (.call limit v args) v (.notCallable v)
  | operand {limit : Nat} {p : Primitive} {home : FrameId} {args : List Value} {v : Value}
      {make : String → Fault} :
      v ∈ args → p.Rejects v make → Complains (.call limit (.primitive p home) args) v make
  /-- A parameter of a closure that was handed in. -/
  | parameter {limit : Nat} {id : ObjectId} {formals args : List Value} {body bad : Value}
      {captured : FrameId} :
      bad ∈ formals → bad.name? = none →
      Complains (.call limit (.closure id formals body captured) args) bad .cannotBind

/-- The faults that a task raises itself, on its machine. -/
inductive Task.Raises : Task → Machine → Fault → Prop where
  | unread {limit : Nat} {text : String} {i : FrameId} {m : Machine} {f : Fault} :
      (readForms limit text).failure = some f → Raises (.source limit text i) m f
  | unreadFirst {limit : Nat} {text : String} {i : FrameId} {m : Machine} {f : Fault} :
      readForm limit text = .error f → Raises (.first limit text i) m f
  /-- A form of a source came to the depth limit. -/
  | cutOff {t : Task} {m m₁ : Machine} {limit : Nat} {form : Value} {i : FrameId} :
      Starts (t, m) (.form limit form i, m₁) → (eval limit form i m₁).1 = .exhausted →
      Raises t m (.tooDeep .evaluating)
  | unbound {limit : Nat} {x : String} {i : FrameId} {m : Machine} :
      m.store.lookup? i x = none → Raises (.form (limit + 1) (.symbol x) i) m (.unbound x)
  | misused {limit : Nat} {k : Keyword} {ops : List Value} {i : FrameId} {m : Machine} :
      ¬ k.Takes ops.length →
      Raises (.rule limit k ops i) m (.arity (some k.name) k.operands ops.length)
  | unowned {limit : Nat} {x : String} {form v : Value} {i : FrameId} {m m₁ : Machine} :
      eval limit form i m = (.value v, m₁) → m₁.store.find? i x = none →
      Raises (.rule limit .assign [.symbol x, form] i) m (.unbound x)
  | complaint {t : Task} {m : Machine} {v : Value} {make : String → Fault} {f : Fault} :
      t.Complains v make → Shows v make f → Raises t m f
  | arity {limit : Nat} {id : ObjectId} {formals args : List Value} {body : Value}
      {captured : FrameId} {m : Machine} :
      args.length ≠ formals.length →
      Raises (.call limit (.closure id formals body captured) args) m
        (.arity (some Keyword.lambda.name) formals.length args.length)
  | listAsKey {limit : Nat} {id : ObjectId} {formals args : List Value} {body v : Value}
      {captured : FrameId} {m : Machine} :
      v ∈ formals → v.isList = true →
      Raises (.call limit (.closure id formals body captured) args) m .listAsKey
  | primitive {limit : Nat} {p : Primitive} {home : FrameId} {args : List Value} {m : Machine}
      {f : Fault} :
      p.Raises args f → Raises (.call limit (.primitive p home) args) m f

/-! ## Faults of primitives -/

/-- A sequence that fails: its first part fails, or its second part when the first has a value. -/
theorem Outcome.bind_eq_fault {α β : Type} {o : Outcome α} {g : α → Outcome β} {f : Fault}
    (h : (o >>= g) = .fault f) : o = .fault f ∨ ∃ a, o = .value a ∧ g a = .fault f := by
  cases o with
  | value a => exact Or.inr ⟨a, rfl, h⟩
  | fault e =>
    cases h
    exact Or.inl rfl
  | exhausted => cases h

/-- A fault that shows a value, or the fault of showing it. -/
theorem Shows.of_describe {α : Type} {limit : Nat} {v : Value} {make : String → Fault} {f : Fault}
    (h : (v.describe limit >>= fun shown => (.fault (make shown) : Outcome α)) = .fault f) :
    Shows v make f := by
  rcases Outcome.bind_eq_fault h with hshow | ⟨text, hshow, hfault⟩
  · exact .unshowable (.of_approx (fun hle => v.describe_approx hle) hshow)
  · cases hfault
    exact .shown (.of_approx (fun hle => v.describe_approx hle) hshow)

/-- Equality of values of which one is no list is answered at once. -/
theorem Value.same_of_not_lists {limit : Nat} {a b : Value} (h : (a.isList && b.isList) = false) :
    ∃ answer, a.same limit b = .value answer := by
  cases a <;> cases b <;> first | exact ⟨_, rfl⟩ | cases h

mutual

/-- Equality has an answer for all values. -/
theorem Value.same_ne_fault {limit : Nat} {f : Fault} (a b : Value) : a.same limit b ≠ .fault f := by
  cases hl : a.isList && b.isList with
  | false =>
    obtain ⟨answer, hanswer⟩ : ∃ answer, a.same limit b = .value answer :=
      Value.same_of_not_lists hl
    simp [hanswer]
  | true =>
    match a, b, hl with
    | .list i xs, .list j ys, _ =>
      simp only [Value.same]
      split
      · simp
      · cases limit with
        | zero => simp
        | succ limit =>
          dsimp only
          split
          · exact sameItems_ne_fault xs ys
          · simp

theorem sameItems_ne_fault {limit : Nat} {f : Fault} (xs ys : List Value) :
    sameItems limit xs ys ≠ .fault f := by
  match xs, ys with
  | x :: xs, y :: ys =>
    simp only [sameItems]
    intro h
    rcases Outcome.bind_eq_fault h with hsame | ⟨b, -, hrest⟩
    · exact x.same_ne_fault y hsame
    · cases b with
      | true => exact sameItems_ne_fault xs ys hrest
      | false => cases hrest
  | [], _ | _ :: _, [] => simp [sameItems]

end

/-- Order of values of which one is no list is answered at once, or there is none. -/
theorem Value.holds_of_not_lists (limit : Nat) (r : Relation) {a b : Value}
    (h : (a.isList && b.isList) = false) :
    (∃ answer, a.holds limit r b = .value answer) ∨
      a.holds limit r b = .fault (.incomparable r.primitive a.kind b.kind) := by
  cases a <;> cases b <;> first | exact Or.inl ⟨_, rfl⟩ | exact Or.inr rfl | cases h

mutual

/-- Order fails only on kinds of values that have none. -/
theorem Value.holds_fault {limit : Nat} {r : Relation} {f : Fault} (a b : Value)
    (h : a.holds limit r b = .fault f) : ∃ k k', f = .incomparable r.primitive k k' := by
  cases hl : a.isList && b.isList with
  | false =>
    rcases Value.holds_of_not_lists limit r hl with ⟨answer, hanswer⟩ | hnone
    · rw [hanswer] at h
      cases h
    · rw [hnone] at h
      cases h
      exact ⟨_, _, rfl⟩
  | true =>
    match a, b, hl with
    | .list i xs, .list j ys, _ =>
      simp only [Value.holds] at h
      split at h
      · cases h
      · cases limit with
        | zero => cases h
        | succ limit => exact itemsHold_fault xs ys h

theorem itemsHold_fault {limit : Nat} {r : Relation} {f : Fault} (xs ys : List Value)
    (h : itemsHold limit r xs ys = .fault f) : ∃ k k', f = .incomparable r.primitive k k' := by
  match xs, ys with
  | x :: xs, y :: ys =>
    simp only [itemsHold] at h
    rcases Outcome.bind_eq_fault h with hsame | ⟨b, -, hrest⟩
    · exact absurd hsame (x.same_ne_fault y)
    · cases b with
      | true => exact itemsHold_fault xs ys hrest
      | false => exact x.holds_fault y hrest
  | [], _ | _ :: _, [] =>
    simp only [itemsHold] at h
    cases h

end

namespace Primitive

variable {limit : Nat} {p : Primitive} {v a b : Value} {args : List Value} {id : ObjectId} {f : Fault}

/-- Only a value that is no integer fails to be one. -/
theorem integer_fault (h : p.integer limit v = .fault f) :
    (∀ n, v ≠ .int n) ∧ Shows v (.notInteger p) f := by
  cases v with
  | int n => cases h
  | _ => exact ⟨by simp, .of_describe h⟩

/-- Only a value that is no list has no items. -/
theorem items_fault (h : p.items limit v = .fault f) : v.isList = false ∧ Shows v (.notList p) f := by
  cases v with
  | list id vs => cases h
  | _ => exact ⟨rfl, .of_describe h⟩

/-- Arithmetic fails on an operand that is no integer, or in the operation itself. -/
theorem arithmetic_fault {g : Int → Int → Outcome Int} (hp : p ∈ [.add, .sub, .mul, .div])
    (h : p.arithmetic limit g a b = .fault f) :
    (∃ v ∈ [a, b], ∃ make, p.Rejects v make ∧ Shows v make f) ∨ ∃ x y, g x y = .fault f := by
  rcases Outcome.bind_eq_fault h with ha | ⟨x, -, h⟩
  · obtain ⟨hint, hshow⟩ := integer_fault ha
    exact Or.inl ⟨a, by simp, _, .notInteger hp hint, hshow⟩
  · rcases Outcome.bind_eq_fault h with hb | ⟨y, -, h⟩
    · obtain ⟨hint, hshow⟩ := integer_fault hb
      exact Or.inl ⟨b, by simp, _, .notInteger hp hint, hshow⟩
    · rcases Outcome.bind_eq_fault h with hg | ⟨_, -, hpure⟩
      · exact Or.inr ⟨x, y, hg⟩
      · cases hpure

/-- An operation on a list fails on what is no list. -/
theorem raises_of_items (hp : p ∈ [.length, .car, .cdr]) {g : List Value → Outcome Value}
    (hg : ∀ vs, g vs ≠ .fault f) (h : (p.items limit a >>= g) = .fault f) : p.Raises [a] f := by
  rcases Outcome.bind_eq_fault h with hitems | ⟨vs, -, hfault⟩
  · obtain ⟨hlist, hshow⟩ := items_fault hitems
    exact .operand (by simp) (.notList hp hlist) hshow
  · exact absurd hfault (hg vs)

/-- A test of order fails on values that have none. -/
theorem raises_of_ordering {r : Relation} (h : ordering limit r a b = .fault f) :
    r.primitive.Raises [a, b] f := by
  rcases Outcome.bind_eq_fault h with hholds | ⟨_, -, hpure⟩
  · obtain ⟨k, k', rfl⟩ := a.holds_fault b hholds
    exact .incomparable
  · cases hpure

/-- A call of a primitive fails with one of its faults. -/
theorem call_fault (h : p.call limit id args = .fault f) : p.Raises args f := by
  -- Arguments are counted before they are looked at, so the cases are by their number first.
  rcases args with _ | ⟨a, _ | ⟨b, _ | ⟨c, rest⟩⟩⟩
  · cases p with
    | list => cases h
    | _ =>
      cases h
      exact .arity rfl (by simp)
  · cases p with
    | list | not | isList | isNull | isSymbol => cases h
    | length | car | cdr => exact raises_of_items (by simp) (by simp) h
    | _ =>
      cases h
      exact .arity rfl (by simp)
  · cases p with
    | list | cons => cases h
    | eqNumber | eqIdentity | eqStructure =>
      rcases Outcome.bind_eq_fault h with hsame | ⟨_, -, hpure⟩
      · exact absurd hsame (a.same_ne_fault b)
      · cases hpure
    | less => exact raises_of_ordering (r := .less) h
    | greater => exact raises_of_ordering (r := .greater) h
    | lessEq => exact raises_of_ordering (r := .lessEq) h
    | greaterEq => exact raises_of_ordering (r := .greaterEq) h
    | add | sub | mul =>
      rcases arithmetic_fault (by simp) h with ⟨v, hv, make, hrejects, hshow⟩ | ⟨x, y, hfault⟩
      · exact .operand hv hrejects hshow
      · cases hfault
    | div =>
      rcases arithmetic_fault (by simp) h with ⟨v, hv, make, hrejects, hshow⟩ | ⟨x, y, hfault⟩
      · exact .operand hv hrejects hshow
      · unfold quotient at hfault
        split at hfault
        · cases hfault
          exact .divisionByZero
        · cases hfault
    | _ =>
      cases h
      exact .arity rfl (by simp)
  · cases p with
    | list => cases h
    | _ =>
      cases h
      exact .arity rfl (by simp)

end Primitive

/-! ## Faults of runs in sequence -/

variable {ev : Evaluator} {i : FrameId} {m m' : Machine} {f : Fault} {limit : Nat}

/-- A sequence fails in its first part, or in its second part when the first has a value. -/
theorem Run.bind_eq_fault {α β : Type} {x : Run α} {g : α → Run β}
    (h : (x >>= g) m = (.fault f, m')) :
    x m = (.fault f, m') ∨ ∃ a m₁, x m = (.value a, m₁) ∧ g a m₁ = (.fault f, m') := by
  rcases Run.bind_eq_ofExcept (r := .error f) h with hvalue | ⟨e, hx, he⟩
  · exact Or.inr hvalue
  · cases he
    exact Or.inl hx

theorem Run.shows_of_faultShowing {α : Type} {v : Value} {make : String → Fault}
    (h : (Run.faultShowing limit v make : Run α) m = (.fault f, m')) : Shows v make f := by
  obtain ⟨-, e, he, hshow⟩ := Run.faultShowing_eq (r := .error f) h
  cases he
  exact hshow

/-- Forms are evaluated in turn: one of them fails, when those before have values. -/
theorem evalAll_fault {forms : List Value} (h : evalAll ev i forms m = (.fault f, m')) :
    ∃ before form after vs m₁, forms = before ++ form :: after ∧
      evalAll ev i before m = (.value vs, m₁) ∧ ev form i m₁ = (.fault f, m') := by
  induction forms generalizing m with
  | nil => cases h
  | cons first forms ih =>
    rcases Run.bind_eq_fault h with hfirst | ⟨v, m₁, hv, h⟩
    · exact ⟨[], first, forms, [], m, rfl, rfl, hfirst⟩
    · rcases Run.bind_eq_fault h with hrest | ⟨_, _, -, hpure⟩
      · obtain ⟨before, form, after, vs, m₂, rfl, hvs, hform⟩ := ih hrest
        refine ⟨first :: before, form, after, v :: vs, m₂, rfl, ?_, hform⟩
        rw [evalAll, Run.bind_of_value _ hv, Run.bind_of_value _ hvs, Run.pure_apply]
      · cases hpure

theorem evalLast_fault {last : Value} {forms : List Value}
    (h : evalLast ev i last forms m = (.fault f, m')) :
    ∃ before form after v m₁, forms = before ++ form :: after ∧
      evalLast ev i last before m = (.value v, m₁) ∧ ev form i m₁ = (.fault f, m') := by
  induction forms generalizing last m with
  | nil => cases h
  | cons first forms ih =>
    rcases Run.bind_eq_fault h with hfirst | ⟨v, m₁, hv, h⟩
    · exact ⟨[], first, forms, last, m, rfl, rfl, hfirst⟩
    · obtain ⟨before, form, after, w, m₂, rfl, hw, hform⟩ := ih h
      refine ⟨first :: before, form, after, w, m₂, rfl, ?_, hform⟩
      rw [evalLast, Run.bind_of_value _ hv, hw]

/-- The forms of a source are reported and evaluated in turn. -/
theorem evalForms_fault {last : Value} {forms : List Value}
    (hshow : ∀ form ∈ forms, ∃ text, form.describe limit = .value text)
    (h : evalForms limit i last forms m = (.fault f, m')) :
    ∃ before form after v m₁ m₂, forms = before ++ form :: after ∧
      evalForms limit i last before m = (.value v, m₁) ∧
      Run.report limit (.readForm form) m₁ = (.value (), m₂) ∧
      evaluate limit form i m₂ = (.fault f, m') := by
  induction forms generalizing last m with
  | nil => cases h
  | cons first forms ih =>
    obtain ⟨⟨text, htext⟩, hforms⟩ := List.forall_mem_cons.1 hshow
    obtain ⟨log, hlog⟩ := Run.report_of_message (Event.message_readForm htext) m
    rw [evalForms, Run.bind_of_value _ hlog] at h
    rcases Run.bind_eq_fault h with hfirst | ⟨v, m₁, hv, h⟩
    · exact ⟨[], first, forms, last, m, _, rfl, rfl, hlog, hfirst⟩
    · obtain ⟨before, form, after, w, m₂, m₃, rfl, hw, hreport, hform⟩ := ih hforms h
      refine ⟨first :: before, form, after, w, m₂, m₃, rfl, ?_, hreport, hform⟩
      rw [evalForms, Run.bind_of_value _ hlog, Run.bind_of_value _ hv, hw]

/-- The first form of a source nests below the limit it was read with, so its report cannot fail. -/
theorem parseFirst_of_readForm {text : String} {form : Value} (h : readForm limit text = .ok form)
    (m : Machine) : ∃ log, parseFirst limit text m = (.value form, { m with log := log }) := by
  obtain ⟨shown, hshown⟩ := describe_of_readForm h
  obtain ⟨log, hlog⟩ := Run.report_of_message (Event.message_parsed hshown) m
  have hvalue : Run.ofExcept (readForm limit text) m = (.value form, m) := by
    rw [h]
    rfl
  refine ⟨log, ?_⟩
  rw [parseFirst, Run.bind_of_value _ hvalue, Run.bind_of_value _ hlog, Run.pure_apply]

/-- A form that fails to be evaluated failed itself, or it was cut off. -/
theorem evaluate_fault {form : Value} (h : evaluate limit form i m = (.fault f, m')) :
    eval limit form i m = (.fault f, m') ∨
      (eval limit form i m).1 = .exhausted ∧ f = .tooDeep .evaluating := by
  rcases heval : eval limit form i m with ⟨o, m₁⟩
  simp only [evaluate, Run.guard, heval] at h
  cases o with
  | value v => cases h
  | fault e => exact Or.inl h
  | exhausted =>
    cases h
    exact Or.inr ⟨rfl, rfl⟩

/-! ## Where faults come from -/

namespace Task

/-- What becomes of a task that fails: it raises its fault itself, or a task that it starts fails with
that fault. -/
def Fails (t : Task) (m : Machine) (f : Fault) : Prop :=
  t.Raises m f ∨ ∃ t' m₁ m₂, Starts (t, m) (t', m₁) ∧ t'.run m₁ = (.fault f, m₂)

/-- A form of a source that fails does so for the source. -/
theorem Fails.of_evaluate {t : Task} {form : Value} {m₁ : Machine}
    (hstarts : Starts (t, m) (.form limit form i, m₁))
    (h : evaluate limit form i m₁ = (.fault f, m')) : t.Fails m f := by
  rcases evaluate_fault h with heval | ⟨hcut, rfl⟩
  · exact Or.inr ⟨_, _, _, hstarts, heval⟩
  · exact Or.inl (.cutOff hstarts hcut)

theorem source_fails {text : String} (h : evalSource limit text i m = (.fault f, m')) :
    (Task.source limit text i).Fails m f := by
  rcases Run.bind_eq_fault h with hforms | ⟨v, m₁, -, h⟩
  · obtain ⟨before, form, after, v, m₁, m₂, hread, hbefore, hreport, hform⟩ :=
      evalForms_fault (fun _ => describe_of_mem_readForms) hforms
    exact .of_evaluate (.read hread hbefore hreport) hform
  · cases hfailure : (readForms limit text).failure with
    | none =>
      rw [hfailure] at h
      cases h
    | some e =>
      rw [hfailure] at h
      cases h
      exact Or.inl (.unread hfailure)

theorem first_fails {text : String} (h : evalFirst limit text i m = (.fault f, m')) :
    (Task.first limit text i).Fails m f := by
  rcases Run.bind_eq_fault h with hparse | ⟨form, m₁, hparse, h⟩
  · cases hread : readForm limit text with
    | error e =>
      rw [parseFirst, hread] at hparse
      cases hparse
      exact Or.inl (.unreadFirst hread)
    | ok form =>
      obtain ⟨log, hvalue⟩ := parseFirst_of_readForm hread m
      rw [hvalue] at hparse
      cases hparse
  · exact .of_evaluate (.readFirst hparse) h

theorem rule_fails {k : Keyword} {ops : List Value}
    (h : k.run limit (eval limit) ops i m = (.fault f, m')) : (Task.rule limit k ops i).Fails m f := by
  cases k.shape ops with
  | misused htakes =>
    rw [Keyword.run_of_not_takes htakes] at h
    cases h
    exact Or.inl (.misused htakes)
  | quote => cases h
  | @cond test yes no hno =>
    rw [Keyword.run, runCond_eq hno] at h
    rcases Run.bind_eq_fault h with htest | ⟨v, m₁, hv, h⟩
    · exact Or.inr ⟨_, _, _, .test hno, htest⟩
    · split at h
      · next hholds => exact Or.inr ⟨_, _, _, .yes hno hv hholds, h⟩
      · next hfails =>
        rcases no with _ | ⟨other, _ | ⟨_, _⟩⟩
        · cases h
        · exact Or.inr ⟨_, _, _, .no hv (Bool.eq_false_iff.2 hfails), h⟩
        · simp at hno
  | @assign x form =>
    rcases Run.bind_eq_fault h with hform | ⟨v, m₁, hv, h⟩
    · exact Or.inr ⟨_, _, _, .bound (Or.inl rfl), hform⟩
    · rcases Run.bind_eq_fault h with hassign | ⟨_, _, -, hpure⟩
      · rw [Scope.assign_apply] at hassign
        split at hassign
        · cases hassign
        · next hfind =>
          cases hassign
          exact Or.inl (.unowned hv hfind)
      · cases hpure
  | @define x form =>
    rcases Run.bind_eq_fault h with hform | ⟨v, m₁, hv, h⟩
    · exact Or.inr ⟨_, _, _, .bound (Or.inr rfl), hform⟩
    · cases h
  | badTarget hk ht =>
    rw [run_of_badTarget hk ht] at h
    exact Or.inl (.complaint (.target hk ht) (Run.shows_of_faultShowing h))
  | lambda =>
    rw [Keyword.run, Keyword.runLambda_symbols] at h
    obtain ⟨log, h⟩ := Run.report_bind_eq rfl h
    cases h
  | badParameters hparams =>
    rw [Keyword.run, runLambda_of_bad hparams] at h
    exact Or.inl (.complaint (.parameters hparams) (Run.shows_of_faultShowing h))
  | begin =>
    obtain ⟨before, form, after, v, m₁, rfl, hv, hform⟩ := evalLast_fault h
    exact Or.inr ⟨_, _, _, .begin hv, hform⟩

/-- The frame of a call is refused for the number of arguments, or for a parameter that is no
symbol. -/
theorem call_raises_of_makeFor {id : ObjectId} {formals args : List Value} {body : Value}
    {captured : FrameId} (h : Scope.makeFor limit formals args captured m = (.fault f, m')) :
    (Task.call limit (.closure id formals body captured) args).Raises m f := by
  by_cases hlen : args.length = formals.length
  · -- A list among the parameters is noticed before any other that is no symbol.
    by_cases hlist : ∃ v ∈ formals, v.isList = true
    · rw [Scope.makeFor_of_list hlen hlist] at h
      cases h
      obtain ⟨v, hv, hl⟩ := hlist
      exact .listAsKey hv hl
    · rcases symbols_or_bad formals with ⟨names, rfl⟩ | ⟨names, bad, later, rfl, hbad⟩
      · rw [length_symbols] at hlen
        rw [Scope.makeFor_symbols hlen] at h
        cases h
      · have hnolist : ∀ v ∈ symbols names ++ bad :: later, v.isList = false :=
          fun v hv => Bool.eq_false_iff.2 fun hl => hlist ⟨v, hv, hl⟩
        rw [Scope.makeFor_of_bad hlen hnolist hbad] at h
        exact .complaint (.parameter (by simp) hbad) (Run.shows_of_faultShowing h)
  · rw [Scope.makeFor_of_length_ne hlen] at h
    cases h
    exact .arity hlen

/-- A frame for a call is made only if the parameters are symbols, so the report of the call cannot
fail. -/
theorem applied_message_of_makeFor {formals args : List Value} {captured j : FrameId} {m₁ : Machine}
    (h : Scope.makeFor limit formals args captured m = (.value j, m₁)) :
    ∃ text, (Event.applied formals args.length).message limit = .value text := by
  obtain ⟨names, rfl, -⟩ := Scope.makeFor_eq_value h
  exact applied_message limit names args.length

theorem call_fails {v : Value} {args : List Value}
    (h : apply limit (eval limit) v args m = (.fault f, m')) : (Task.call limit v args).Fails m f := by
  by_cases hv : v.IsProcedure
  · cases v with
    | primitive p home =>
      rw [apply, Run.bind_of_value _ (Run.update_apply ..)] at h
      exact Or.inl (.primitive (Primitive.call_fault (Prod.mk.inj h).1))
    | closure id formals body captured =>
      rcases Run.bind_eq_fault h with hframe | ⟨j, m₁, hframe, h⟩
      · exact Or.inl (call_raises_of_makeFor hframe)
      · obtain ⟨text, htext⟩ := applied_message_of_makeFor hframe
        obtain ⟨log, hlog⟩ := Run.report_of_message htext m₁
        rw [Run.bind_of_value _ hlog] at h
        exact Or.inr ⟨_, _, _, .body hframe hlog, h⟩
    | _ => rcases hv with hv | hv <;> cases hv
  · rw [apply_of_not_procedure hv] at h
    exact Or.inl (.complaint (.procedure hv) (Run.shows_of_faultShowing h))

theorem form_fails {form : Value} (h : eval limit form i m = (.fault f, m')) :
    (Task.form limit form i).Fails m f := by
  cases limit with
  | zero =>
    rw [eval] at h
    cases h
  | succ limit =>
    rw [eval] at h
    cases form with
    | symbol x =>
      rw [evalStep, Scope.lookup_apply] at h
      cases hlookup : m.store.lookup? i x with
      | none =>
        rw [hlookup] at h
        cases h
        exact Or.inl (.unbound hlookup)
      | some v =>
        rw [hlookup] at h
        cases h
    | list id items =>
      cases items with
      | nil => exact Or.inl (.complaint .nothing (Run.shows_of_faultShowing h))
      | cons head ops =>
        cases hk : head.keyword? with
        | some k =>
          simp only [evalStep, hk] at h
          have hmessage : (Event.keyword k).message limit = .value ("special form " ++ k.name) := rfl
          obtain ⟨log, hlog⟩ := Run.report_of_message hmessage m
          rw [Run.bind_of_value _ hlog] at h
          exact Or.inr ⟨_, _, _, .special hk hlog, h⟩
        | none =>
          simp only [evalStep, hk] at h
          rcases Run.bind_eq_fault h with hhead | ⟨v, m₁, hv, h⟩
          · have hitems : head :: ops = [] ++ head :: ops := rfl
            exact Or.inr ⟨_, _, _, .item hk hitems rfl, hhead⟩
          · rcases Run.bind_eq_fault h with hops | ⟨args, m₂, hargs, h⟩
            · obtain ⟨before, form, after, vs, m₂, rfl, hvs, hform⟩ := evalAll_fault hops
              have hall : evalAll (eval (limit - 1)) i (head :: before) m = (.value (v :: vs), m₂) := by
                rw [evalAll, Run.bind_of_value _ hv, Run.bind_of_value _ hvs, Run.pure_apply]
              exact Or.inr ⟨_, _, _, .item hk rfl hall, hform⟩
            · have hall : evalAll (eval (limit - 1)) i (head :: ops) m = (.value (v :: args), m₂) := by
                rw [evalAll, Run.bind_of_value _ hv, Run.bind_of_value _ hargs, Run.pure_apply]
              exact Or.inr ⟨_, _, _, .call hk hall, h⟩
    | _ => cases h

/-- A task that fails raises its fault itself, or starts a task that fails with it. -/
theorem fault_cases {t : Task} (h : t.run m = (.fault f, m')) : t.Fails m f := by
  cases t with
  | source limit text i => exact source_fails h
  | first limit text i => exact first_fails h
  | form limit form i => exact form_fails h
  | rule limit k ops i => exact rule_fails h
  | call limit v args => exact call_fails h

/-- Every fault was raised by some task of the tree. -/
theorem fault_origin {t : Task} (h : t.run m = (.fault f, m')) :
    ∃ t' m₁, Relation.ReflTransGen Starts (t, m) (t', m₁) ∧ t'.Raises m₁ f := by
  -- The tree ends, so the search for the task that raised the fault does.
  induction hn : t.height using Nat.strongRecOn generalizing t m m' with
  | ind n ih =>
    rcases fault_cases h with hraises | ⟨t', m₁, m₂, hstarts, hfails⟩
    · exact ⟨t, m, .refl, hraises⟩
    · obtain ⟨t'', m₃, hchain, hraises⟩ := ih _ (hn ▸ hstarts.height_lt) hfails rfl
      exact ⟨t'', m₃, .head hstarts hchain, hraises⟩

end Task

end Lisplet
