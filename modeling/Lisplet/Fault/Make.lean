import Lisplet.Value.Describe

/-!
# Faults from values

Faults made on purpose, from a class and the values that describe what happened.

Main definition: `Fault.ofKind`.
-/

namespace Lisplet.Fault

/-- The fault of a key that is not bound. -/
def unboundKey (limit : Nat) (key : Value) : Outcome Fault := do
  let title ← key.title limit
  pure (.unbound title)

/-- The fault of applying a value that is no procedure. -/
def uncallable (limit : Nat) (v : Value) : Outcome Fault := do
  let shown ← v.describe limit
  pure (.notCallable v shown)

/-- The fault of a class whose message is made from values: nothing gives the empty message, one
value its title, and several their descriptions between parentheses. -/
def withArguments (limit : Nat) (kind : FaultKind) : List Value → Outcome Fault
  | [] => pure (.stated kind "")
  | [v] => do
    let title ← v.title limit
    pure (.stated kind title)
  | vs => do
    let shown ← describeAll limit vs
    pure (.stated kind ("(" ++ ", ".intercalate shown ++ ")"))

/-- What a name contributes to the message of an arity fault: the title of a value that says
something, and nothing otherwise. -/
def nameText (limit : Nat) : Option Value → Outcome String
  | none | some .noValue | some (.bool false) | some (.int 0) | some (.list _ []) => pure ""
  | some v => v.title limit

/-- The fault of a wrong number of operands. -/
def miscounted (limit : Nat) (expected received : Value) (name : Option Value) :
    Outcome Fault := do
  let about ← nameText limit name
  let wanted ← expected.title limit
  let got ← received.title limit
  pure (.statedArity expected received name (arityText about wanted got))

/-- The fault of a class that values describe: the key that is not bound, the value that is no
procedure, or the expected and the received number of operands with a name or without. Any other
number of values is a fault itself. Faults of other classes take the values as their message. -/
def ofKind (limit : Nat) : FaultKind → List Value → Outcome Fault
  | .unbound, [key] => unboundKey limit key
  | .notCallable, [v] => uncallable limit v
  | .arity, [expected, received] => miscounted limit expected received none
  | .arity, [expected, received, name] => miscounted limit expected received (some name)
  | kind, vs =>
    if kind.details?.isSome then .fault (.badDetails kind vs.length)
    else withArguments limit kind vs

end Lisplet.Fault
