import Lisplet.Text.Printable

/-!
# Quoted text

How a text is written between quotes in diagnostics. Single quotes are used, unless the text has a
single quote and no double quote. The quote in use and the backslash are escaped by a backslash,
tab, line feed and carriage return have short escapes, and every other character that does not print
is given by its code point in two, four or eight hexadecimal digits.

Main definition: `quoted`.
-/

namespace Lisplet.Text

/-- The lower-case hexadecimal digits of a number, with zeros in front up to the width. -/
def hexDigits (width n : Nat) : List Char :=
  (Nat.toDigits 16 n).leftpad width '0'

/-- The quote that `quoted` puts around a text. -/
def quoteFor (s : List Char) : Char :=
  if s.contains '\x27' && !s.contains '"' then '"' else '\x27'

/-- One character of a quoted text, inside the given quote. -/
def escaped (quote c : Char) : List Char :=
  if c = quote || c = '\\' then ['\\', c]
  else if c = '\t' then ['\\', 't']
  else if c = '\n' then ['\\', 'n']
  else if c = '\r' then ['\\', 'r']
  else if isPrintable c then [c]
  else if c.toNat < 0x100 then '\\' :: 'x' :: hexDigits 2 c.toNat
  else if c.toNat < 0x10000 then '\\' :: 'u' :: hexDigits 4 c.toNat
  else '\\' :: 'U' :: hexDigits 8 c.toNat

/-- A text between quotes, with its quotes, backslashes and unprintable characters escaped. -/
def quoted (s : List Char) : List Char :=
  let q := quoteFor s
  q :: s.flatMap (escaped q) ++ [q]

/-- `quoted` on strings. -/
def quote (s : String) : String :=
  String.ofList (quoted s.toList)

end Lisplet.Text
