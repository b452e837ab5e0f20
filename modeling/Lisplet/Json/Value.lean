import Lisplet.Number.Double
import Lisplet.Text.Quoted

/-!
# JSON documents

Documents, their compact ASCII text, and the text by which messages show them. The fields of an
object keep the order of their first occurrence, and a repeated name takes its last value.

A string of a document need not be a text: half of a surrogate pair can be escaped on its own. It is no
character, but it is a letter of the string, and is written and shown as the unit that it is.

Main definitions: `Json.Letter`, `Json`, `Json.write`, `Json.describe`, `Json.title`.
-/

namespace Lisplet

/-! ## Strings -/

/-- A letter of a string: a character, or half of a surrogate pair that stands alone. -/
inductive Json.Letter where
  | char (c : Char)
  /-- The 16-bit unit that is so far above U+D800. -/
  | half (n : Fin 0x800)
  deriving DecidableEq, Repr

/-- What a string holds. -/
abbrev Json.Letters := List Json.Letter

/-- The letters of a text. -/
def Json.lettersOf (s : String) : Json.Letters :=
  s.toList.map .char

instance : Coe String Json.Letters := ⟨Json.lettersOf⟩

/-- The text of letters, where the halves of pairs are replaced. -/
def Json.textOf (s : Json.Letters) : String :=
  String.ofList (s.map fun
    | .char c => c
    | .half _ => '\ufffd')

/-! ## Documents -/

/-- A JSON document; integers and doubles are kept apart. -/
inductive Json where
  | null
  | bool (b : Bool)
  | int (n : Int)
  | double (x : Double)
  | str (s : Json.Letters)
  | arr (items : List Json)
  | obj (fields : List (Json.Letters × Json))
  deriving Inhabited

namespace Json

/-- Sets a field, in its old place if it has one and at the end otherwise. -/
def setField (name : Letters) (v : Json) : List (Letters × Json) → List (Letters × Json)
  | [] => [(name, v)]
  | (n, w) :: fields => if n = name then (n, v) :: fields else (n, w) :: setField name v fields

/-- The value of a field. -/
def field? : List (Letters × Json) → Letters → Option Json
  | [], _ => none
  | (n, v) :: fields, name => if n = name then some v else field? fields name

/-- Whether a document is the string of this text. -/
def isText (text : String) : Json → Bool
  | .str s => decide (s = text)
  | _ => false

/-! ## Text -/

/-- The escape of a 16-bit unit. -/
def unitEscape (n : Nat) : List Char :=
  '\\' :: 'u' :: Text.hexDigits 4 n

/-- One character inside a string: ASCII stands for itself, and other characters are escaped by the
units of their UTF-16 form. -/
def escapeChar (c : Char) : List Char :=
  let n := c.toNat
  if c = '"' then ['\\', '"']
  else if c = '\\' then ['\\', '\\']
  else if c = '\n' then ['\\', 'n']
  else if c = '\r' then ['\\', 'r']
  else if c = '\t' then ['\\', 't']
  else if c = '\x08' then ['\\', 'b']
  else if c = '\x0c' then ['\\', 'f']
  else if 0x20 ≤ n && n < 0x7F then [c]
  else if n < 0x10000 then unitEscape n
  else unitEscape (0xD800 + (n - 0x10000) / 0x400) ++ unitEscape (0xDC00 + (n - 0x10000) % 0x400)

/-- One letter inside a string. -/
def escapeLetter : Letter → List Char
  | .char c => escapeChar c
  | .half n => unitEscape (0xD800 + n)

/-- The text of a string. -/
def writeString (s : Letters) : List Char :=
  '"' :: s.flatMap escapeLetter ++ ['"']

/-- The text of a double, where the special ones have names. -/
def writeDouble : Double → List Char
  | .nan => "NaN".toList
  | .infinite negative => (if negative then "-Infinity" else "Infinity").toList
  | x => x.text

/-- Texts with a comma and a space between each two. -/
def commaSeparated (texts : List (List Char)) : List Char :=
  List.intercalate [',', ' '] texts

mutual

/-- The text of a document. -/
def write : Json → List Char
  | .null => "null".toList
  | .bool b => (if b then "true" else "false").toList
  | .int n => Text.Numeral.ofInt n
  | .double x => writeDouble x
  | .str s => writeString s
  | .arr items => '[' :: commaSeparated (writeItems items) ++ [']']
  | .obj fields => '\x7b' :: commaSeparated (writeFields fields) ++ ['\x7d']

/-- The texts of documents. -/
def writeItems : List Json → List (List Char)
  | [] => []
  | v :: vs => v.write :: writeItems vs

/-- The texts of fields. -/
def writeFields : List (Letters × Json) → List (List Char)
  | [] => []
  | (name, v) :: fields => (writeString name ++ ':' :: ' ' :: v.write) :: writeFields fields

end

/-! ## Descriptions -/

/-- One letter of a string in messages, inside the given quote. -/
def quotedLetter (quote : Char) : Letter → List Char
  | .char c => Text.escaped quote c
  | .half n => unitEscape (0xD800 + n)

/-- The description of a string in messages. -/
def describeString (s : Letters) : List Char :=
  let q := Text.quoteFor (textOf s).toList
  q :: s.flatMap (quotedLetter q) ++ [q]

mutual

/-- The description of a document in messages. -/
def describe : Json → List Char
  | .null => "None".toList
  | .bool b => (if b then "True" else "False").toList
  | .int n => Text.Numeral.ofInt n
  | .double x => x.text
  | .str s => describeString s
  | .arr items => '[' :: commaSeparated (describeItems items) ++ [']']
  | .obj fields => '\x7b' :: commaSeparated (describeFields fields) ++ ['\x7d']

/-- The descriptions of documents. -/
def describeItems : List Json → List (List Char)
  | [] => []
  | v :: vs => v.describe :: describeItems vs

/-- The descriptions of fields. -/
def describeFields : List (Letters × Json) → List (List Char)
  | [] => []
  | (name, v) :: fields =>
    (describeString name ++ ':' :: ' ' :: v.describe) :: describeFields fields

end

/-- How a document is named in running text: a string by what it holds, everything else by its
description. -/
def title : Json → Letters
  | .str s => s
  | v => String.ofList v.describe

end Json

end Lisplet
