import Lisplet.Outcome

/-!
# Tokens

A source text is cut into tokens: each parenthesis is one, and so is each longest run of characters
that are neither parentheses nor blank. There are no other delimiters, no comments and no strings. This
is had by setting off the parentheses with spaces and taking the words of the text.

Main definitions: `tokenize`, `atom`.
-/

namespace Lisplet

/-- A text with every occurrence of a character replaced. -/
def replaceChar (c : Char) (new s : List Char) : List Char :=
  s.flatMap fun d => if d = c then new else [d]

/-- A text with a space before and after every parenthesis: the opening ones are replaced in the text, and
the closing ones in what comes of that. -/
def spaceParens (s : List Char) : List Char :=
  replaceChar ')' [' ', ')', ' '] (replaceChar '(' [' ', '(', ' '] s)

/-- The tokens of a text, as lists of characters. -/
def tokens (s : List Char) : List (List Char) :=
  Text.words (spaceParens s)

/-- The tokens of a source. -/
def tokenize (source : String) : List String :=
  (tokens source.toList).map String.ofList

/-- Whether a token starts with a minus sign, and what stands after its sign if it has one. -/
def splitSign : List Char → Bool × List Char
  | '-' :: r => (true, r)
  | '+' :: r => (false, r)
  | r => (false, r)

/-- The value of a token that is no parenthesis. A token that starts with an integer is that
integer, and what follows the digits is dropped; every other token is a symbol. -/
def atom (token : String) : Except Fault Value :=
  let (negative, rest) := splitSign token.toList
  let digits := rest.takeWhile Char.isDigit
  if digits.isEmpty then .ok (.symbol token)
  else if Text.Numeral.maxDigits < digits.length then .error (.longNumeral digits.length)
  else
    let n := Text.Numeral.ofDigits digits
    .ok (.int (if negative then -n else n))

end Lisplet
