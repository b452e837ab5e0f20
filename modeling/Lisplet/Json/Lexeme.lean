import Lisplet.Json.Value

/-!
# Lexemes of JSON

The pieces of a JSON text: brackets, braces, commas, colons, names of constants, numbers and
strings, each with its place in the text. Lexing stops at the end of the text and at the first place
where no lexeme can be had; what that means depends on what the document needs there.

Besides JSON proper, `NaN`, `Infinity` and `-Infinity` are numbers.

Main definitions: `Lexeme`, `Lexemes`, `lexemes`.
-/

namespace Lisplet.Json

/-- What can be wrong at a place of a JSON text. -/
inductive Problem where
  | expectingValue
  | expectingName
  | expectingColon
  | expectingComma
  | extraData
  | unterminatedString
  | controlCharacter
  | badEscape
  | badUnicodeEscape
  | byteOrderMark
  deriving DecidableEq, Repr

/-- The wording of a problem. -/
def Problem.text : Problem → String
  | .expectingValue => "Expecting value"
  | .expectingName => "Expecting property name enclosed in double quotes"
  | .expectingColon => "Expecting ':' delimiter"
  | .expectingComma => "Expecting ',' delimiter"
  | .extraData => "Extra data"
  | .unterminatedString => "Unterminated string starting at"
  | .controlCharacter => "Invalid control character at"
  | .badEscape => "Invalid \\escape"
  | .badUnicodeEscape => "Invalid \\uXXXX escape"
  | .byteOrderMark => "Unexpected UTF-8 BOM (decode using utf-8-sig)"

/-- A piece of a JSON text. -/
inductive Lexeme where
  | beginObject
  | endObject
  | beginArray
  | endArray
  | comma
  | colon
  | string (s : Letters)
  /-- A constant or a number. -/
  | scalar (v : Json)

/-- Why lexing stops. -/
inductive Stop where
  | endOfText
  /-- No lexeme starts here. -/
  | nothing
  /-- A string starts here and has a problem at some place. -/
  | badString (problem : Problem) (place : Nat)
  /-- An integer starts here and has too many digits. -/
  | longNumeral (digits : Nat)
  deriving DecidableEq, Repr

/-- Lexemes with their places, up to where lexing stops. -/
inductive Lexemes where
  | cons (place : Nat) (lexeme : Lexeme) (rest : Lexemes)
  | stop (place : Nat) (why : Stop)

/-! ## Strings -/

/-- The value of a hexadecimal digit. -/
def hexValue? (c : Char) : Option Nat :=
  if '0' ≤ c && c ≤ '9' then some (c.toNat - '0'.toNat)
  else if 'a' ≤ c && c ≤ 'f' then some (c.toNat - 'a'.toNat + 10)
  else if 'A' ≤ c && c ≤ 'F' then some (c.toNat - 'A'.toNat + 10)
  else none

/-- The value of four hexadecimal digits. -/
def unit? (a b c d : Char) : Option Nat := do
  let a ← hexValue? a
  let b ← hexValue? b
  let c ← hexValue? c
  let d ← hexValue? d
  some (((a * 16 + b) * 16 + c) * 16 + d)

/-- The letter of a 16-bit unit. -/
def unitLetter (n : Nat) : Letter :=
  if h : 0xD800 ≤ n ∧ n < 0xE000 then .half ⟨n - 0xD800, by omega⟩ else .char (Char.ofNat n)

/-- Whether two halves make a pair: the first one is below U+DC00 and the second one is not. -/
def isPair (high low : Fin 0x800) : Bool :=
  decide (high.val < 0x400) && decide (0x400 ≤ low.val)

/-- The character of a pair. -/
def pairChar (high low : Fin 0x800) : Char :=
  Char.ofNat (0x10000 + high * 0x400 + (low - 0x400))

/-- What a one-letter escape stands for. -/
def escapeOf? (c : Char) : Option Char :=
  if c = '"' || c = '\\' || c = '/' then some c
  else if c = 'b' then some '\x08'
  else if c = 'f' then some '\x0c'
  else if c = 'n' then some '\n'
  else if c = 'r' then some '\r'
  else if c = 't' then some '\t'
  else none

/-- The letters of a string, where two halves that make a pair are one character. -/
def joinPairs : Letters → Letters
  | [] => []
  | .char c :: r => .char c :: joinPairs r
  | .half h :: .half l :: r =>
    if isPair h l then .char (pairChar h l) :: joinPairs r else .half h :: joinPairs (.half l :: r)
  | .half h :: r => .half h :: joinPairs r

/-- A letter in front of the letters of a string. -/
def prepend (x : Letter) (r : Except Stop (Letters × Nat)) : Except Stop (Letters × Nat) :=
  r.map fun (xs, place) => (x :: xs, place)

/-- The letters of a string whose opening quote stands at `start`, read from `place` on one by one, and
the place after its closing quote. -/
def scanLetters (start place : Nat) : List Char → Except Stop (Letters × Nat)
  | [] => .error (.badString .unterminatedString start)
  | c :: r =>
    if c = '"' then .ok ([], place + 1)
    else if c = '\\' then
      match r with
      | [] => .error (.badString .unterminatedString start)
      | e :: r =>
        if e = 'u' then
          match r with
          | h₁ :: h₂ :: h₃ :: h₄ :: r =>
            match unit? h₁ h₂ h₃ h₄ with
            | none => .error (.badString .badUnicodeEscape (place + 1))
            | some n =>
              if r.isEmpty then .error (.badString .badUnicodeEscape (place + 1))
              else prepend (unitLetter n) (scanLetters start (place + 6) r)
          | _ => .error (.badString .badUnicodeEscape (place + 1))
        else
          match escapeOf? e with
          | some x => prepend (.char x) (scanLetters start (place + 2) r)
          | none => .error (.badString .badEscape place)
    else if c.toNat < 0x20 then .error (.badString .controlCharacter place)
    else prepend (.char c) (scanLetters start (place + 1) r)

/-- The letters of a string whose opening quote stands at `start`, and the place after its closing
quote. -/
def scanString (start : Nat) (cs : List Char) : Except Stop (Letters × Nat) :=
  (scanLetters start (start + 1) cs).map fun (s, after) => (joinPairs s, after)

/-! ## Numbers -/

/-- The parts of a number as it is written. -/
structure NumberText where
  negative : Bool
  whole : List Char
  fraction : List Char
  exponent : Option (Bool × List Char)

/-- The number of characters of a number. -/
def NumberText.size (t : NumberText) (signedExponent : Bool) : Nat :=
  let sign := if t.negative then 1 else 0
  let fraction := if t.fraction.isEmpty then 0 else t.fraction.length + 1
  let exponent := match t.exponent with
    | none => 0
    | some (_, ds) => ds.length + if signedExponent then 2 else 1
  sign + t.whole.length + fraction + exponent

/-- The digits before the point: a zero alone, or digits that do not begin with a zero. -/
def wholePart : List Char → List Char
  | '0' :: _ => ['0']
  | cs => cs.takeWhile Char.isDigit

/-- The digits after the point, if a point and a digit come first. -/
def fractionPart : List Char → List Char
  | '.' :: cs => cs.takeWhile Char.isDigit
  | _ => []

/-- The sign and the digits of the exponent, and whether the sign is written, if the mark of an
exponent and a digit come first. -/
def exponentPart : List Char → Option (Bool × List Char × Bool)
  | c :: cs =>
    if c = 'e' || c = 'E' then
      let (negative, written, rest) := match cs with
        | '-' :: r => (true, true, r)
        | '+' :: r => (false, true, r)
        | r => (false, false, r)
      let ds := rest.takeWhile Char.isDigit
      if ds.isEmpty then none else some (negative, ds, written)
    else none
  | [] => none

/-- The number at the start of a text, and how many characters it takes. -/
def numberText? (cs : List Char) : Option (NumberText × Nat) :=
  let (negative, r) := match cs with
    | '-' :: r => (true, r)
    | r => (false, r)
  let whole := wholePart r
  if whole.isEmpty then none
  else
    let r := r.drop whole.length
    let fraction := fractionPart r
    let r := if fraction.isEmpty then r else r.drop (fraction.length + 1)
    match exponentPart r with
    | none =>
      let t := ⟨negative, whole, fraction, none⟩
      some (t, t.size false)
    | some (down, ds, written) =>
      let t := ⟨negative, whole, fraction, some (down, ds)⟩
      some (t, t.size written)

/-- The value of a number: an integer if it has neither fraction nor exponent, and a double
otherwise. -/
def NumberText.value (t : NumberText) : Except Stop Json :=
  match t.fraction, t.exponent with
  | [], none =>
    if Text.Numeral.maxDigits < t.whole.length then .error (.longNumeral t.whole.length)
    else
      let n := Text.Numeral.ofDigits t.whole
      .ok (.int (if t.negative then -n else n))
  | fraction, exponent =>
    let shift : Int := match exponent with
      | none => 0
      | some (down, ds) =>
        let n := Text.Numeral.ofDigits ds
        if down then -n else n
    .ok (.double (.ofDecimal t.negative (t.whole ++ fraction) (shift - fraction.length)))

/-- Names of constants. -/
def constants : List (String × Json) :=
  [("null", .null), ("true", .bool true), ("false", .bool false), ("NaN", .double .nan),
    ("Infinity", .double (.infinite false)), ("-Infinity", .double (.infinite true))]

/-- The constant or number at the start of a text, and how many characters it takes. -/
def scalar? (cs : List Char) : Option (Except Stop Json × Nat) :=
  match constants.find? (·.1.toList.isPrefixOf cs) with
  | some (name, v) => some (.ok v, name.length)
  | none =>
    match numberText? cs with
    | some (t, n) => some (t.value, n)
    | none => none

/-! ## Texts -/

/-- Whether a character may stand between lexemes. -/
def isSpace (c : Char) : Bool :=
  c == ' ' || c == '\t' || c == '\n' || c == '\r'

/-- The lexeme of a character that is one by itself. -/
def mark? (c : Char) : Option Lexeme :=
  if c = '\x7b' then some .beginObject
  else if c = '\x7d' then some .endObject
  else if c = '[' then some .beginArray
  else if c = ']' then some .endArray
  else if c = ',' then some .comma
  else if c = ':' then some .colon
  else none

/-- The lexemes of a text that starts at `place`. -/
def lexemesFrom (place : Nat) : List Char → Lexemes
  | [] => .stop place .endOfText
  | c :: r =>
    if isSpace c then lexemesFrom (place + 1) r
    else
      match mark? c with
      | some l => .cons place l (lexemesFrom (place + 1) r)
      | none =>
        if c = '"' then
          match scanString place r with
          | .error why => .stop place why
          | .ok (s, after) =>
            .cons place (.string s) (lexemesFrom after (r.drop (after - place - 1)))
        else
          match scalar? (c :: r) with
          | none => .stop place .nothing
          | some (.error why, _) => .stop place why
          | some (.ok v, n) => .cons place (.scalar v) (lexemesFrom (place + n) (r.drop (n - 1)))
termination_by cs => cs.length

/-- The lexemes of a text. -/
def lexemes (cs : List Char) : Lexemes :=
  lexemesFrom 0 cs

end Lisplet.Json
