/-!
# Lines of bytes

A stream of bytes is cut into lines at line feeds, without regard to how it arrives in pieces.

Main definitions: `splitLines`, `stripBytes`.
-/

namespace Lisplet

/-- The byte that ends a line. -/
def lineFeed : UInt8 := 10

/-- The complete lines at the front of some bytes, without their ends, and the rest. -/
def splitLines : List UInt8 → List (List UInt8) × List UInt8
  | [] => ([], [])
  | b :: bs =>
    match splitLines bs with
    | (lines, rest) =>
      if b = lineFeed then ([] :: lines, rest)
      else
        match lines with
        | [] => ([], b :: rest)
        | l :: ls => ((b :: l) :: ls, rest)

/-- Whether a byte is ASCII white space. -/
def isSpaceByte (b : UInt8) : Bool :=
  b == 32 || (decide (9 ≤ b) && decide (b ≤ 13))

/-- Bytes without the white space at either end. -/
def stripBytes (bs : List UInt8) : List UInt8 :=
  ((bs.dropWhile isSpaceByte).reverse.dropWhile isSpaceByte).reverse

end Lisplet
