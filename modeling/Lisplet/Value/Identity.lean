import Lisplet.Value

/-!
# One and the same list

Whether two lists are one and the same: they have the same identity and hold the same items. That a
list is itself is known without looking into it, however deep it is and however often its parts are
shared, because data that is in the same place of the memory need not be compared.

Identities are given away at run time only. A list that is read, such as one that is quoted, has none and
is never known to be itself, so comparing it with itself goes through its items. The answer is the same,
and only the depth that it takes is more: a limit that is below its nesting is met there.

Main definition: `oneList`. Main statement: `oneList_iff`.
-/

namespace Lisplet

mutual

/-- Whether two values are the same in every respect. -/
def Value.alike : Value → Value → Bool
  | .noValue, .noValue => true
  | .bool b, .bool c => b == c
  | .int m, .int n => m == n
  | .symbol x, .symbol y => x == y
  | .list i xs, .list j ys => i == j && itemsAlike xs ys
  | .primitive p h, .primitive q k => p == q && h == k
  | .closure i xs v f, .closure j ys w g => i == j && itemsAlike xs ys && v.alike w && f == g
  | .text s, .text t => s == t
  | _, _ => false

/-- Whether the values of two lists are the same in every respect. -/
def itemsAlike : List Value → List Value → Bool
  | [], [] => true
  | x :: xs, y :: ys => x.alike y && itemsAlike xs ys
  | _, _ => false

end

mutual

/-- Values are alike exactly if they are equal. -/
theorem Value.alike_iff (v w : Value) : v.alike w = true ↔ v = w := by
  cases v <;> cases w <;> simp [Value.alike]
  case list.list i xs j ys => intro _; exact itemsAlike_iff xs ys
  case closure.closure i xs v f j ys w g =>
    simp [itemsAlike_iff xs ys, Value.alike_iff v w, and_assoc]

/-- The values of two lists are alike exactly if the lists are equal. -/
theorem itemsAlike_iff (xs ys : List Value) : itemsAlike xs ys = true ↔ xs = ys := by
  cases xs with
  | nil => cases ys <;> simp [itemsAlike]
  | cons x xs =>
    cases ys with
    | nil => simp [itemsAlike]
    | cons y ys => simp [itemsAlike, Value.alike_iff x y, itemsAlike_iff xs ys]

end

/-- Whether two lists, given by their identities and items, are one and the same. -/
def oneList (i j : Option ObjectId) (xs ys : List Value) : Bool :=
  i.isSome && i == j &&
    withPtrEq xs ys (fun _ => itemsAlike xs ys) fun h => (itemsAlike_iff xs ys).2 h

/-- Lists are one and the same if they have an identity in common and the same items. -/
theorem oneList_iff {i j : Option ObjectId} {xs ys : List Value} :
    oneList i j xs ys = true ↔ i.isSome = true ∧ i = j ∧ xs = ys := by
  simp [oneList, withPtrEq, itemsAlike_iff, and_assoc]

end Lisplet
