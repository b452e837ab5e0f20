import Lisplet.Log
import Lisplet.Text.Digit
import Lisplet.Text.Upper

/-!
# The host

What a program finds around it: variables with its settings, and files. A setting that is missing or
blank has its default, and blanks around a setting do not count.

Main definitions: `Host`, `Host.text?`, `Host.integer`, `Host.level`, `Host.address`,
`Host.preludePath`, `Host.read`, `Host.readText`.
-/

namespace Lisplet

/-- Settings by the names of their variables, and files with their bytes, by their paths from the
working directory. -/
structure Host where
  settings : List (String × String)
  files : List (String × List UInt8)

/-- Settings and their defaults. -/
structure Setting (α : Type) where
  variableName : String
  default : α

namespace Setting

/-- The least level that is logged. -/
def level : Setting Level := ⟨"TINYSCHEME_LOG_LEVEL", .warning⟩

/-- The name of the machine that the server listens on. -/
def host : Setting String := ⟨"TINYSCHEME_REPL_HOST", "127.0.0.1"⟩

/-- The port that the server listens on. -/
def port : Setting Int := ⟨"TINYSCHEME_REPL_PORT", 8765⟩

/-- The file that sessions load first. -/
def preludeFile : Setting (Option String) := ⟨"TINYSCHEME_PRELUDE", none⟩

end Setting

/-- The digits of a numeral, from decimal digits of any script with single underscores between
them. -/
def numeralDigits? : List Char → Option (List Nat)
  | [] => none
  | [c] => (Text.digitOf? c).map ([·])
  | c :: '_' :: r => do
    let d ← Text.digitOf? c
    let ds ← numeralDigits? r
    some (d :: ds)
  | c :: r => do
    let d ← Text.digitOf? c
    let ds ← numeralDigits? r
    some (d :: ds)

/-- The integer that the text of a setting stands for: a sign or none, then a numeral that is not
too long. -/
def settingInteger? (s : List Char) : Option Int := do
  let (negative, rest) := match s with
    | '-' :: r => (true, r)
    | '+' :: r => (false, r)
    | r => (false, r)
  let ds ← numeralDigits? rest
  if ds.length ≤ Text.Numeral.maxDigits then
    let n : Nat := ds.foldl (fun n d => 10 * n + d) 0
    some (if negative then -n else n)
  else none

/-- A directory: one below the working directory, by the names that lead there, or one outside it,
where no files are known. -/
inductive Directory where
  | below (names : List String)
  | outside
  deriving DecidableEq, Repr

/-- The directory above a directory. -/
def Directory.parent : Directory → Directory
  | .below [] | .outside => .outside
  | .below names => .below names.dropLast

namespace Host

/-- The text of a variable without the blanks around it, if it has any other character. -/
def text? (h : Host) (name : String) : Option String :=
  match h.settings.lookup name with
  | none => none
  | some raw =>
    let trimmed := Text.trim raw.toList
    if trimmed.isEmpty then none else some (String.ofList trimmed)

/-- An integer setting. -/
def integer (h : Host) (setting : Setting Int) : Except Fault Int :=
  match h.text? setting.variableName with
  | none => .ok setting.default
  | some raw =>
    match settingInteger? raw.toList with
    | some n => .ok n
    | none => .error (.badIntegerSetting setting.variableName raw)

/-- The level to log at; names of levels are taken in any case. -/
def level (h : Host) : Except Fault Level :=
  match h.text? Setting.level.variableName with
  | none => .ok Setting.level.default
  | some raw =>
    let name := String.ofList (Text.upper raw.toList)
    match Level.ofName? name with
    | some l => .ok l
    | none => .error (.badLevel Setting.level.variableName name)

/-- The address to listen on. -/
def address (h : Host) : Except Fault Address := do
  let port ← h.integer Setting.port
  pure ⟨(h.text? Setting.host.variableName).getD Setting.host.default, port⟩

/-- The path of the prelude, if there is one. -/
def preludePath (h : Host) : Option String :=
  (h.text? Setting.preludeFile.variableName).map Path.normalize

/-- The bytes of the file that names lead to from a directory. -/
def follow (h : Host) : Directory → List String → Except Path.Problem (List UInt8)
  | _, [] => .error .directory
  | dir, name :: rest =>
    if name = Path.up then h.follow dir.parent rest
    else if Path.maxName < name.utf8ByteSize then .error .tooLong
    else
      match dir with
      | .outside => .error .missing
      | .below above =>
        let here := above ++ [name]
        match h.files.find? fun file => Path.names file.1 == here with
        | some file => if rest.isEmpty then .ok file.2 else .error .belowFile
        | none =>
          if h.files.any fun file => here.isPrefixOf (Path.names file.1) then
            h.follow (.below here) rest
          else .error .missing

/-- The bytes of the file at a path. -/
def read (h : Host) (path : String) : Except Path.Problem (List UInt8) :=
  if Path.maxPath < path.utf8ByteSize then .error .tooLong
  else h.follow (if Path.isAbsolute path then .outside else .below []) (Path.names path)

/-- The text of the file at a path. -/
def readText (h : Host) (path : String) : Except Fault String :=
  match h.read path with
  | .error problem => .error (.unreadable problem path)
  | .ok bytes =>
    match Text.Utf8.decode bytes with
    | .ok cs => .ok (String.ofList cs)
    | .error d => .error (.badEncoding d)

end Host

end Lisplet
