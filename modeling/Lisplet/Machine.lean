import Lisplet.Log
import Lisplet.Store

/-!
# Machines and runs

A machine is the state that running programs share: the store and the log. A run takes a machine and
gives an outcome together with the machine it leaves behind; what was done before a fault, or before
the depth limit was reached, stays done.

Main definitions: `Machine`, `Run`, its monad, `Run.query`, `Run.update`, `Run.report`, `Run.guard`.
-/

namespace Lisplet

/-- The store and the log. -/
structure Machine where
  store : Store
  log : Log

/-- A machine on which nothing has happened. -/
def Machine.new (threshold : Level) : Machine :=
  ⟨Store.empty, Log.new threshold⟩

/-- A computation on a machine. -/
def Run (α : Type) : Type :=
  Machine → Outcome α × Machine

namespace Run

variable {α β : Type}

/-- Gives a value and changes nothing. -/
def value (a : α) : Run α := fun m => (.value a, m)

/-- Goes on with the value of the first run, on the machine it left. -/
def bind (x : Run α) (f : α → Run β) : Run β := fun m =>
  match x m with
  | (.value a, m') => f a m'
  | (.fault e, m') => (.fault e, m')
  | (.exhausted, m') => (.exhausted, m')

instance : Monad Run where
  pure := value
  bind := bind

/-- Ends with an outcome and changes nothing. -/
def lift (o : Outcome α) : Run α := fun m => (o, m)

/-- Ends with a fault. -/
def fault (f : Fault) : Run α := lift (.fault f)

/-- Ends because the depth limit is reached. -/
def exhausted : Run α := lift .exhausted

/-- Ends with the result of a computation that has no depth limit. -/
def ofExcept (r : Except Fault α) : Run α := lift (Outcome.ofExcept r)

/-- Ends with a fault that shows a value. -/
def faultShowing (limit : Nat) (v : Value) (f : String → Fault) : Run α := do
  let shown ← lift (v.describe limit)
  fault (f shown)

/-- What the store answers to a question. -/
def query (f : Store → α) : Run α := fun m => (.value (f m.store), m)

/-- Changes the store. -/
def update (f : Store → α × Store) : Run α := fun m =>
  let (a, s) := f m.store
  (.value a, { m with store := s })

/-- Reports an event. The message of an event that is kept is worked out at once. -/
def report (limit : Nat) (e : Event) : Run Unit := fun m =>
  if m.log.keeps e.level then
    match e.message limit with
    | .value text => (.value (), { m with log := m.log.add ⟨e.level, e.source, text⟩ })
    | .fault f => (.fault f, m)
    | .exhausted => (.exhausted, m)
  else (.value (), m)

/-- Turns reaching the depth limit into a fault. -/
def guard (activity : Activity) (x : Run α) : Run α := fun m =>
  let (o, m') := x m
  (Outcome.ofExcept (o.toExcept activity), m')

/-- The outcome of a run as a value. -/
def observe (x : Run α) : Run (Outcome α) := fun m =>
  let (o, m') := x m
  (.value o, m')

end Run

end Lisplet
