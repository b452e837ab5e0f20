import Lisplet.Text.Numeral
import Lisplet.Text.Quoted

/-!
# UTF-8

Decoding of bytes as UTF-8 text, with the exact place and reason of the first defect. A lead byte
admits a range of second bytes, which rules out overlong forms, surrogates and code points beyond
U+10FFFF; every later byte is a continuation byte.

Main definitions: `decode`, `Defect.message`, `encode`.
-/

namespace Lisplet.Text.Utf8

/-- Why bytes are not UTF-8. -/
inductive Reason where
  | invalidStart
  | invalidContinuation
  | unexpectedEnd
  deriving DecidableEq, Repr

/-- The first defect of a byte sequence: the bytes from `first` on, `count` of them, cannot be
decoded, and `lead` is the first of them. -/
structure Defect where
  reason : Reason
  lead : UInt8
  first : Nat
  count : Nat
  deriving DecidableEq, Repr

/-- The wording of a reason. -/
def Reason.text : Reason → String
  | .invalidStart => "invalid start byte"
  | .invalidContinuation => "invalid continuation byte"
  | .unexpectedEnd => "unexpected end of data"

/-- The wording of a defect; one byte is named by its value, several by their positions. -/
def Defect.message (d : Defect) : String :=
  let place :=
    if d.count = 1 then
      "byte 0x" ++ String.ofList (hexDigits 2 d.lead.toNat) ++ " in position " ++
        String.ofList (Numeral.ofNat d.first)
    else
      "bytes in position " ++ String.ofList (Numeral.ofNat d.first) ++ "-" ++
        String.ofList (Numeral.ofNat (d.first + d.count - 1))
  "'utf-8' codec can't decode " ++ place ++ ": " ++ d.reason.text

/-- Whether a byte continues a character. -/
def isContinuation (b : UInt8) : Bool :=
  decide (0x80 ≤ b) && decide (b ≤ 0xBF)

/-- Whether a byte may stand second after the lead byte. -/
def isSecond (lead b : UInt8) : Bool :=
  isContinuation b &&
    (if lead = 0xE0 then decide (0xA0 ≤ b)
    else if lead = 0xED then decide (b < 0xA0)
    else if lead = 0xF0 then decide (0x90 ≤ b)
    else if lead = 0xF4 then decide (b < 0x90)
    else true)

/-- The number of bytes of the character that a lead byte begins, or `none` if no character begins
with it. -/
def lengthOf? (lead : UInt8) : Option Nat :=
  if lead < 0x80 then some 1
  else if lead < 0xC2 then none
  else if lead < 0xE0 then some 2
  else if lead < 0xF0 then some 3
  else if lead < 0xF5 then some 4
  else none

/-- The low six bits of a continuation byte. -/
def payload (b : UInt8) : Nat :=
  b.toNat % 0x40

/-- Decodes from byte position `pos` on. -/
def decodeFrom (pos : Nat) : List UInt8 → Except Defect (List Char)
  | [] => .ok []
  | a :: r =>
    match lengthOf? a with
    | none => .error ⟨.invalidStart, a, pos, 1⟩
    | some 1 => (decodeFrom (pos + 1) r).map (Char.ofNat a.toNat :: ·)
    | some n =>
      match r with
      | [] => .error ⟨.unexpectedEnd, a, pos, 1⟩
      | b :: r =>
        if !isSecond a b then .error ⟨.invalidContinuation, a, pos, 1⟩
        else if n = 2 then
          (decodeFrom (pos + 2) r).map (Char.ofNat (a.toNat % 0x20 * 0x40 + payload b) :: ·)
        else
          match r with
          | [] => .error ⟨.unexpectedEnd, a, pos, 2⟩
          | c :: r =>
            if !isContinuation c then .error ⟨.invalidContinuation, a, pos, 2⟩
            else if n = 3 then
              (decodeFrom (pos + 3) r).map
                (Char.ofNat (a.toNat % 0x10 * 0x1000 + payload b * 0x40 + payload c) :: ·)
            else
              match r with
              | [] => .error ⟨.unexpectedEnd, a, pos, 3⟩
              | d :: r =>
                if !isContinuation d then .error ⟨.invalidContinuation, a, pos, 3⟩
                else
                  (decodeFrom (pos + 4) r).map
                    (Char.ofNat (a.toNat % 0x08 * 0x40000 + payload b * 0x1000 + payload c * 0x40 +
                      payload d) :: ·)

/-- The text that bytes encode, or the first defect. -/
def decode (bytes : List UInt8) : Except Defect (List Char) :=
  decodeFrom 0 bytes

/-- The bytes of a text. -/
def encode (s : String) : List UInt8 :=
  s.toUTF8.toList

end Lisplet.Text.Utf8
