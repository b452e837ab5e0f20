/-!
# Decimal numerals

Integers as decimal text. Conversion either way is limited to numerals of 4300 digits, the sign not
counted: a longer run of digits is not read, and an integer whose numeral would be longer is not
written. Arithmetic itself has no limit.

Main definitions: `ofDigits`, `ofInt`, `writeInt?`.
-/

namespace Lisplet.Text.Numeral

/-- The longest run of digits that is converted. -/
def maxDigits : Nat := 4300

/-- The least natural number that has more than `maxDigits` digits. -/
def bound : Nat := Nat.pow 10 maxDigits

/-- The value of one ASCII digit. -/
def digitValue (c : Char) : Nat :=
  c.toNat - '0'.toNat

/-- The number that a run of ASCII digits stands for; leading zeros add nothing. -/
def ofDigits (ds : List Char) : Nat :=
  ds.foldl (fun n d => 10 * n + digitValue d) 0

/-- The decimal digits of a natural number, without leading zeros. -/
def ofNat (n : Nat) : List Char :=
  Nat.toDigits 10 n

/-- The decimal text of an integer, with a sign only when it is negative. -/
def ofInt : Int → List Char
  | .ofNat n => ofNat n
  | .negSucc n => '-' :: ofNat (n + 1)

/-- The decimal text of an integer, unless it has more than `maxDigits` digits. -/
def writeInt? (n : Int) : Option (List Char) :=
  if n.natAbs < bound then some (ofInt n) else none

end Lisplet.Text.Numeral
