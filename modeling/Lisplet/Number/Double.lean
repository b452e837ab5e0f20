import Lisplet.Text.Numeral

/-!
# Doubles

Numbers with a 53-bit mantissa and a binary exponent, as JSON documents hold them: the double
nearest to a decimal, and the shortest decimal that stands for a double. All arithmetic is exact.

Main definitions: `Double`, `Double.ofDecimal`, `Double.shortest`, `Double.text`.
-/

namespace Lisplet

/-- A double. A finite one is its mantissa times a power of two. -/
inductive Double where
  | finite (negative : Bool) (mantissa : Nat) (exponent : Int)
  | infinite (negative : Bool)
  | nan
  deriving DecidableEq, Repr

namespace Double

/-- The bits of a mantissa. -/
def precision : Nat := 53

/-- The least exponent of a finite double. -/
def minExponent : Int := -1074

/-- The greatest exponent of a finite double. -/
def maxExponent : Int := 971

/-- The quotient of two natural numbers to the nearest one, where a tie goes to the even one. -/
def roundDiv (a b : Nat) : Nat :=
  let q := a / b
  let r := a % b
  if 2 * r < b then q
  else if b < 2 * r then q + 1
  else q + q % 2

/-- Numerator and denominator of `num / den` times a power of `base`. -/
def scale (base : Nat) (e : Int) (num den : Nat) : Nat × Nat :=
  match e with
  | .ofNat k => (num * base.pow k, den)
  | .negSucc k => (num, den * base.pow (k + 1))

/-- The exponent of the greatest power of two that is at most `num / den`, for a positive
fraction. -/
def log2 (num den : Nat) : Int :=
  let guess : Int := (Nat.log2 num : Int) - Nat.log2 den
  let (a, b) := scale 2 (-guess) num den
  if a < b then guess - 1 else guess

/-- The double nearest to a positive fraction. -/
def ofFraction (negative : Bool) (num den : Nat) : Double :=
  let e := max (log2 num den - (precision - 1)) minExponent
  let (a, b) := scale 2 (-e) num den
  let m := roundDiv a b
  let (m, e) := if m = Nat.pow 2 precision then (Nat.pow 2 (precision - 1), e + 1) else (m, e)
  if maxExponent < e then .infinite negative else .finite negative m e

/-- The double nearest to `digits · 10 ^ e`. -/
def ofDecimal (negative : Bool) (digits : List Char) (e : Int) : Double :=
  let n := Text.Numeral.ofDigits digits
  let size : Int := (Text.Numeral.ofNat n).length + e
  if n = 0 || size < -330 then .finite negative 0 minExponent
  else if 310 < size then .infinite negative
  else
    let (num, den) := scale 10 e n 1
    ofFraction negative num den

/-- The number of places before the decimal point of a positive fraction: the least `p` with the
fraction below `10 ^ p`. The search starts from a value that is too small by at most `fuel`. -/
def pointFrom (num den : Nat) : Nat → Int → Int
  | 0, p => p
  | fuel + 1, p =>
    let (a, b) := scale 10 (-p) num den
    if a < b then p else pointFrom num den fuel (p + 1)

/-- The decimals with at most `count` digits that lie next to a mantissa times a power of two, as a
multiple of a power of ten, if one of them rounds to it: the nearer one, if both do, and the even
one, if they are equally near. -/
def candidate (m : Nat) (e point : Int) (count : Nat) : Option Nat :=
  -- In quarters of the last bit the value is `4 m`, and it reaches down and up by half a gap.
  let unit := point - count
  let (num, den) := scale 2 (e - 2) (4 * m) 1
  let (a, b) := scale 10 (-unit) num den
  let below := if m = Nat.pow 2 (precision - 1) && minExponent < e then 4 * m - 1 else 4 * m - 2
  let above := 4 * m + 2
  let lo := a / b
  let fits (c : Nat) : Bool :=
    let (x, y) := scale 10 unit c 1
    let (l, ld) := scale 2 (e - 2) below 1
    let (h, hd) := scale 2 (e - 2) above 1
    if m % 2 = 0 then decide (l * y ≤ x * ld) && decide (x * hd ≤ h * y)
    else decide (l * y < x * ld) && decide (x * hd < h * y)
  if fits lo && (!fits (lo + 1) || roundDiv a b = lo) then some lo
  else if fits (lo + 1) then some (lo + 1)
  else none

/-- The first number of digits, counted from `count`, for which there is a candidate. -/
def shortestFrom (m : Nat) (e point : Int) : Nat → Nat → Nat × Nat
  | 0, count => (((candidate m e point count).getD 0), count)
  | fuel + 1, count =>
    match candidate m e point count with
    | some c => (c, count)
    | none => shortestFrom m e point fuel (count + 1)

/-- The shortest digits that round to a positive mantissa times a power of two, and the place of the
decimal point: the value is `0.d₁d₂… · 10 ^ point`. -/
def shortest (m : Nat) (e : Int) : List Char × Int :=
  let (num, den) := scale 2 e m 1
  let guess : Int := (log2 num den * 30103) / 100000 - 1
  let point := pointFrom num den 4 guess
  let (c, count) := shortestFrom m e point 16 1
  let digits := Text.Numeral.ofNat c
  let stripped := (digits.reverse.dropWhile (· == '0')).reverse
  (stripped, point + (digits.length - count))

/-- Digits with a decimal point, positionally. -/
def positional (digits : List Char) (point : Int) : List Char :=
  if point ≤ 0 then '0' :: '.' :: List.replicate (-point).toNat '0' ++ digits
  else
    let p := point.toNat
    if digits.length ≤ p then digits ++ List.replicate (p - digits.length) '0' ++ ['.', '0']
    else digits.take p ++ '.' :: digits.drop p

/-- Digits with an exponent of at least two digits. -/
def scientific (digits : List Char) (point : Int) : List Char :=
  let e := point - 1
  let mantissa := match digits with
    | d :: r@(_ :: _) => d :: '.' :: r
    | ds => ds
  let sign := if e < 0 then '-' else '+'
  mantissa ++ 'e' :: sign :: (Text.Numeral.ofNat e.natAbs).leftpad 2 '0'

/-- The text of a double: the fewest digits that round to it, positionally for values from `0.0001`
up to below `10 ^ 16`. -/
def text : Double → List Char
  | .nan => ['n', 'a', 'n']
  | .infinite negative => (if negative then ['-'] else []) ++ ['i', 'n', 'f']
  | .finite negative m e =>
    let body :=
      if m = 0 then ['0', '.', '0']
      else
        let (digits, point) := shortest m e
        if -4 < point && point ≤ 16 then positional digits point else scientific digits point
    (if negative then ['-'] else []) ++ body

end Double

end Lisplet
