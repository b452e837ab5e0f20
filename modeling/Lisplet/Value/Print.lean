import Lisplet.Value.Describe

/-!
# Printed values

The text of a value as source: a tree of integers, symbols and lists is printed as a form that reads
back as the same tree. Procedures and the absence of a value have texts of their own.

Main definitions: `Value.print`, `Value.printed`.
-/

namespace Lisplet

/-- What is printed for the absence of a value. -/
def noOutput : String := "[No output]"

/-- Texts with a space between each two. -/
def spaced (texts : List (List Char)) : List Char :=
  List.intercalate [' '] texts

mutual

/-- The printed text of a value, within a depth limit. -/
def Value.print (limit : Nat) : Value → Outcome (List Char)
  | .noValue => pure noOutput.toList
  | .bool b => pure (if b then ['#', 't'] else ['#', 'f'])
  | .int n => writeInt n
  | .symbol x => pure x.toList
  | .list _ items =>
    match limit with
    | 0 => .exhausted
    | limit + 1 => do
      let texts ← printAll limit items
      pure ('(' :: spaced texts ++ [')'])
  | .primitive p _ => pure ("#<primitive " ++ p.name ++ ">").toList
  | .closure _ formals _ _ =>
    match limit with
    | 0 => .exhausted
    | limit + 1 => do
      let names ← titleAll limit formals
      pure ("#<procedure (" ++ " ".intercalate names ++ ")>").toList
  | .text s => pure (Text.quoted s.toList)

/-- The printed texts of values, in order. -/
def printAll (limit : Nat) : List Value → Outcome (List (List Char))
  | [] => pure []
  | v :: vs => do
    let t ← v.print limit
    let ts ← printAll limit vs
    pure (t :: ts)

end

/-- The printed text of a value, or why it has none. -/
def Value.printed (limit : Nat) (v : Value) : Except Fault String :=
  ((v.print limit).toExcept .printing).map String.ofList

end Lisplet
