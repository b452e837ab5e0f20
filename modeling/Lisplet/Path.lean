/-!
# Paths

A path is written in one way: empty parts and parts that are a single dot are dropped, and so is a
slash at the end. Parts that step up stay. A path that starts with a slash keeps one, and one that
starts with exactly two slashes keeps both. What would be empty is a single dot.

Main definitions: `Path.normalize`, `Path.names`, `Path.Problem`.
-/

namespace Lisplet.Path

/-- The parts of a path between its slashes. -/
def parts : List Char → List (List Char)
  | [] => [[]]
  | c :: cs =>
    if c = '/' then [] :: parts cs
    else
      match parts cs with
      | [] => [[c]]
      | p :: ps => (c :: p) :: ps

/-- The slashes that a path keeps at its start. -/
def root (path : List Char) : List Char :=
  match (path.takeWhile (· == '/')).length with
  | 0 => []
  | 2 => ['/', '/']
  | _ => ['/']

/-- Whether a part of a path says nothing. -/
def isVoid (part : List Char) : Bool :=
  part == [] || part == ['.']

/-- The parts of a path that say something. -/
def steps (path : List Char) : List (List Char) :=
  (parts path).filter (!isVoid ·)

/-- The one way in which a path is written. -/
def normalizeChars (path : List Char) : List Char :=
  let text := root path ++ List.intercalate ['/'] (steps path)
  if text.isEmpty then ['.'] else text

/-- `normalizeChars` on strings. -/
def normalize (path : String) : String :=
  String.ofList (normalizeChars path.toList)

/-- The names that a path goes through. -/
def names (path : String) : List String :=
  (steps path.toList).map String.ofList

/-- Whether a path starts from the root of the file tree. -/
def isAbsolute (path : String) : Bool :=
  path.toList.head? == some '/'

/-- The name of the directory above. -/
def up : String := ".."

/-- The longest name of a file, in bytes. -/
def maxName : Nat := 255

/-- The longest path, in bytes. -/
def maxPath : Nat := 4095

/-- Why a path leads to no file that can be read. -/
inductive Problem where
  | missing
  /-- The path goes on below a file. -/
  | belowFile
  /-- The path leads to a directory. -/
  | directory
  | tooLong
  deriving DecidableEq, Repr

/-- The number of a problem. -/
def Problem.code : Problem → Nat
  | .missing => 2
  | .belowFile => 20
  | .directory => 21
  | .tooLong => 36

/-- The wording of a problem. -/
def Problem.text : Problem → String
  | .missing => "No such file or directory"
  | .belowFile => "Not a directory"
  | .directory => "Is a directory"
  | .tooLong => "File name too long"

end Lisplet.Path
