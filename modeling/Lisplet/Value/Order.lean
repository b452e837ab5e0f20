import Lisplet.Outcome
import Lisplet.Value.Identity

/-!
# Equality and order of values

There is one equality: booleans count as the numbers zero and one, lists are equal when they have
the same length and equal items, and a procedure is equal only to itself. Numbers are ordered, host
texts are ordered by code points, and lists are ordered by the first pair of items that differ or
else by their lengths. Nothing else has an order. Each level of nesting uses one unit of depth, but
comparing a list with itself uses none if the list was made at run time. A list that was read has no
identity, and comparing it with itself uses its nesting like comparing it with any equal list.

Main definitions: `Value.same`, `Relation`, `Value.holds`.
-/

namespace Lisplet

mutual

/-- Whether two values are equal. -/
def Value.same (limit : Nat) : Value → Value → Outcome Bool
  | .list i xs, .list j ys =>
    if oneList i j xs ys then pure true
    else
      match limit with
      | 0 => .exhausted
      | limit + 1 => if xs.length = ys.length then sameItems limit xs ys else pure false
  | .noValue, .noValue => pure true
  | .symbol x, .symbol y => pure (x == y)
  | .primitive p h, .primitive q k => pure (p == q && h == k)
  | .closure i _ _ _, .closure j _ _ _ => pure (i == j)
  | .text s, .text t => pure (s == t)
  | a, b =>
    match a.number?, b.number? with
    | some m, some n => pure (m == n)
    | _, _ => pure false

/-- Whether the items of two lists of one length are equal, position by position. -/
def sameItems (limit : Nat) : List Value → List Value → Outcome Bool
  | x :: xs, y :: ys => do
    if ← x.same limit y then sameItems limit xs ys else pure false
  | _, _ => pure true

end

/-- The four relations of an order. -/
inductive Relation where
  | less
  | greater
  | lessEq
  | greaterEq
  deriving DecidableEq, Repr

namespace Relation

/-- The primitive that tests a relation. -/
def primitive : Relation → Primitive
  | .less => .less
  | .greater => .greater
  | .lessEq => .lessEq
  | .greaterEq => .greaterEq

/-- Whether a relation holds of two things that compare in the given way. -/
def admits : Relation → Ordering → Bool
  | .less, o => o.isLT
  | .greater, o => o.isGT
  | .lessEq, o => o.isLE
  | .greaterEq, o => o.isGE

end Relation

mutual

/-- Whether a relation holds between two values. -/
def Value.holds (limit : Nat) (r : Relation) : Value → Value → Outcome Bool
  | .list i xs, .list j ys =>
    if oneList i j xs ys then pure (r.admits .eq)
    else
      match limit with
      | 0 => .exhausted
      | limit + 1 => itemsHold limit r xs ys
  | .text s, .text t => pure (r.admits (compare s t))
  | a, b =>
    match a.number?, b.number? with
    | some m, some n => pure (r.admits (compare m n))
    | _, _ => .fault (.incomparable r.primitive a.kind b.kind)

/-- Whether a relation holds between two lists: the first unequal pair of items decides, and if
there is none, the lengths. -/
def itemsHold (limit : Nat) (r : Relation) : List Value → List Value → Outcome Bool
  | x :: xs, y :: ys => do
    if ← x.same limit y then itemsHold limit r xs ys else x.holds limit r y
  | xs, ys => pure (r.admits (compare xs.length ys.length))

end

end Lisplet
