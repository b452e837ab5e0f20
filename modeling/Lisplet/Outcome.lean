import Lisplet.Fault

/-!
# Outcomes

A computation under a depth limit ends in one of three ways: with a value, with a fault, or because
the limit was reached. Reaching the limit is kept apart from the faults, so that "more depth gives
the same answer" can be said of the other two.

Main definitions: `Outcome`, its monad, `Outcome.toExcept`.
-/

namespace Lisplet

/-- How a computation ends. -/
inductive Outcome (α : Type) where
  | value (a : α)
  | fault (f : Fault)
  /-- The depth limit was reached. -/
  | exhausted

namespace Outcome

/-- Goes on with the value, if there is one. -/
def bind {α β : Type} : Outcome α → (α → Outcome β) → Outcome β
  | .value a, f => f a
  | .fault e, _ => .fault e
  | .exhausted, _ => .exhausted

instance : Monad Outcome where
  pure := .value
  bind := Outcome.bind

/-- The value or the fault, where reaching the depth limit is the fault of the activity. -/
def toExcept {α : Type} (activity : Activity) : Outcome α → Except Fault α
  | .value a => .ok a
  | .fault f => .error f
  | .exhausted => .error (.tooDeep activity)

/-- A result without a depth limit as an outcome. -/
def ofExcept {α : Type} : Except Fault α → Outcome α
  | .ok a => .value a
  | .error f => .fault f

@[simp]
theorem pure_eq_value {α : Type} (a : α) : (pure a : Outcome α) = .value a := rfl

@[simp]
theorem value_bind {α β : Type} (a : α) (f : α → Outcome β) : (Outcome.value a >>= f) = f a := rfl

@[simp]
theorem fault_bind {α β : Type} (e : Fault) (f : α → Outcome β) :
    (Outcome.fault e >>= f) = .fault e := rfl

@[simp]
theorem exhausted_bind {α β : Type} (f : α → Outcome β) :
    ((Outcome.exhausted : Outcome α) >>= f) = .exhausted := rfl

end Outcome

end Lisplet
