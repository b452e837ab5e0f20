import Lisplet.Value.Describe
import Lisplet.Value.Order

/-!
# Calls of primitives

What each primitive computes from its arguments. Primitives read and change no frame: a call depends
on the arguments and the depth limit alone, and on the identity that a list takes which it makes.

Main definitions: `Operation`, `Primitive.operation`, `Primitive.call`.
-/

namespace Lisplet

/-- An operation on values, with the number of operands it takes. -/
inductive Operation where
  | unary (f : Value → Outcome Value)
  | binary (f : Value → Value → Outcome Value)
  | variadic (f : List Value → Outcome Value)

namespace Operation

/-- The number of operands, or `none` if any number will do. -/
def arity : Operation → Option Nat
  | .unary _ => some 1
  | .binary _ => some 2
  | .variadic _ => none

/-- Calls an operation of the given name; the wrong number of operands is a fault. -/
def call (name : String) : Operation → List Value → Outcome Value
  | .unary f, [a] => f a
  | .binary f, [a, b] => f a b
  | .variadic f, args => f args
  | .unary _, args => .fault (.arity (some name) 1 args.length)
  | .binary _, args => .fault (.arity (some name) 2 args.length)

end Operation

namespace Primitive

/-- The integer that an operand of arithmetic is; booleans are none. -/
def integer (limit : Nat) (p : Primitive) : Value → Outcome Int
  | .int n => pure n
  | v => do
    let shown ← v.describe limit
    .fault (.notInteger p shown)

/-- Arithmetic on two integers; the first operand is checked first. -/
def arithmetic (limit : Nat) (p : Primitive) (f : Int → Int → Outcome Int) (a b : Value) :
    Outcome Value := do
  let m ← p.integer limit a
  let n ← p.integer limit b
  let r ← f m n
  pure (.int r)

/-- The quotient rounded toward negative infinity. -/
def quotient (p : Primitive) (m n : Int) : Outcome Int :=
  if n = 0 then .fault (.divisionByZero p) else pure (m.fdiv n)

/-- The items of the list that an operand is. -/
def items (limit : Nat) (p : Primitive) : Value → Outcome (List Value)
  | .list _ vs => pure vs
  | v => do
    let shown ← v.describe limit
    .fault (.notList p shown)

/-- The equality test of all three equality primitives. -/
def equality (limit : Nat) (a b : Value) : Outcome Value := do
  let b ← a.same limit b
  pure (.bool b)

/-- The test of an order relation. -/
def ordering (limit : Nat) (r : Relation) (a b : Value) : Outcome Value := do
  let b ← a.holds limit r b
  pure (.bool b)

/-- The first item of a list, or no value if it is empty. -/
def first : List Value → Value
  | [] => .noValue
  | v :: _ => v

/-- What a primitive computes, where `id` is the identity of a list that it makes. -/
def operation (limit : Nat) (id : ObjectId) : Primitive → Operation
  | .add => .binary (arithmetic limit .add fun m n => pure (m + n))
  | .sub => .binary (arithmetic limit .sub fun m n => pure (m - n))
  | .mul => .binary (arithmetic limit .mul fun m n => pure (m * n))
  | .div => .binary (arithmetic limit .div (quotient .div))
  | .not => .unary fun v => pure (.bool !v.isTrue)
  | .eqNumber | .eqIdentity | .eqStructure => .binary (equality limit)
  | .less => .binary (ordering limit .less)
  | .greater => .binary (ordering limit .greater)
  | .lessEq => .binary (ordering limit .lessEq)
  | .greaterEq => .binary (ordering limit .greaterEq)
  | .length => .unary fun v => do
    let vs ← items limit .length v
    pure (.int vs.length)
  | .cons => .binary fun a b => pure (.list (some id) (a.asList ++ b.asList))
  | .car => .unary fun v => do
    let vs ← items limit .car v
    pure (first vs)
  | .cdr => .unary fun v => do
    let vs ← items limit .cdr v
    pure (.list (some id) vs.tail)
  | .list => .variadic fun vs => pure (.list (some id) vs)
  | .isList => .unary fun v => pure (.bool v.isList)
  | .isNull => .unary fun v => pure (.bool (v.isList && v.asList.isEmpty))
  | .isSymbol => .unary fun v => pure (.bool v.name?.isSome)

/-- The table of arities agrees with the operations. -/
theorem operation_arity (limit : Nat) (id : ObjectId) (p : Primitive) :
    (p.operation limit id).arity = p.arity := by
  cases p <;> rfl

/-- Calls a primitive, where `id` is the identity of a list that it makes. -/
def call (limit : Nat) (id : ObjectId) (p : Primitive) (args : List Value) : Outcome Value :=
  (p.operation limit id).call p.name args

end Primitive

end Lisplet
