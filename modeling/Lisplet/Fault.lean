import Lisplet.Path
import Lisplet.Text.Utf8
import Lisplet.Value

/-!
# Faults

Every way in which reading, evaluating, printing or setting up can fail, as its cause. A cause that
shows a value carries the description of the value as it was when the fault arose.

Main definitions: `Fault`, `Fault.kind`, `Fault.message`.
-/

namespace Lisplet

/-- What was going on when the depth limit was reached. -/
inductive Activity where
  | reading
  | evaluating
  | printing
  deriving DecidableEq, Repr

/-- The classes of faults. -/
inductive FaultKind where
  | general | malformed | unbound | arity | notCallable | wrongType | divisionByZero | tooDeep
  | badNumber | missingKey | badUse | unreadable (problem : Path.Problem) | badEncoding
  deriving DecidableEq, Repr

namespace FaultKind

/-- The name of a class of faults, as it is reported to clients. -/
def label : FaultKind → String
  | .general => "SchemeError"
  | .malformed => "SchemeSyntaxError"
  | .unbound => "UnboundSymbolError"
  | .arity => "ArityError"
  | .notCallable => "NotCallableError"
  | .wrongType => "SchemeTypeError"
  | .divisionByZero => "DivisionByZeroError"
  | .tooDeep => "RecursionDepthError"
  | .badNumber => "ValueError"
  | .missingKey => "KeyError"
  | .badUse => "TypeError"
  | .unreadable .missing => "FileNotFoundError"
  | .unreadable .belowFile => "NotADirectoryError"
  | .unreadable .directory => "IsADirectoryError"
  | .unreadable .tooLong => "OSError"
  | .badEncoding => "UnicodeDecodeError"

/-- Every class of faults. -/
def all : List FaultKind :=
  [.general, .malformed, .unbound, .arity, .notCallable, .wrongType, .divisionByZero, .tooDeep,
    .badNumber, .missingKey, .badUse, .unreadable .missing, .unreadable .belowFile,
    .unreadable .directory, .unreadable .tooLong, .badEncoding]

/-- The class of a name. -/
def ofLabel? (label : String) : Option FaultKind :=
  all.find? (·.label == label)

/-- Whether a class belongs to the language, and not to the host that runs it. -/
def ofLanguage : FaultKind → Bool
  | .badNumber | .missingKey | .badUse | .unreadable _ | .badEncoding => false
  | _ => true

/-- The details that a fault of a class is made from, if they are fixed: those that must be given,
and how many more may be. -/
def details? : FaultKind → Option (List String × Nat)
  | .unbound => some (["symbol"], 0)
  | .arity => some (["expected", "received"], 1)
  | .notCallable => some (["value"], 0)
  | _ => none

end FaultKind

/-- The causes of failure. -/
inductive Fault where
  /-- The tokens end inside a form, or before one. -/
  | unexpectedEnd
  /-- A form begins with a closing parenthesis. -/
  | unmatchedClose
  /-- Something other than a symbol was to be bound. -/
  | cannotBind (shown : String)
  /-- The first operand of an assignment or a definition is no symbol. -/
  | badTarget (keyword : Keyword) (shown : String)
  /-- The parameters of a `lambda` form are no list of symbols. -/
  | badParameters (shown : String)
  /-- No frame of the chain binds the name. -/
  | unbound (name : String)
  /-- A procedure or keyword got the wrong number of operands. -/
  | arity (procedure : Option String) (expected received : Nat)
  /-- The head of an application is no procedure. -/
  | notCallable (value : Value) (shown : String)
  /-- An operand of arithmetic is no integer. -/
  | notInteger (primitive : Primitive) (shown : String)
  /-- The operand of a list operation is no list. -/
  | notList (primitive : Primitive) (shown : String)
  /-- Values of these types have no order. -/
  | incomparable (primitive : Primitive) (left right : Kind)
  | divisionByZero (primitive : Primitive)
  /-- The depth limit was reached. -/
  | tooDeep (activity : Activity)
  /-- A run of digits is too long to be read. -/
  | longNumeral (digits : Nat)
  /-- An integer is too long to be written. -/
  | longInteger
  /-- A frame does not bind the key. -/
  | missingKey (shown : String)
  /-- A list cannot be looked up. -/
  | listAsKey
  /-- The text of a setting is no integer. -/
  | badIntegerSetting (setting text : String)
  /-- The name of a log level is unknown. -/
  | badLevel (setting name : String)
  /-- A path leads to no file that can be read. -/
  | unreadable (problem : Path.Problem) (path : String)
  | badEncoding (defect : Text.Utf8.Defect)
  /-- A fault of a class with a message of its raiser's choice. -/
  | stated (kind : FaultKind) (message : String)
  /-- A wrong number of operands, as the raiser of the fault states it. -/
  | statedArity (expected received : Value) (name : Option Value) (message : String)
  /-- A fault of a class was to be made from the wrong number of details. -/
  | badDetails (kind : FaultKind) (given : Nat)
  deriving Inhabited

namespace Fault

/-- The class of a fault. -/
def kind : Fault → FaultKind
  | .unexpectedEnd | .unmatchedClose => .malformed
  | .cannotBind _ | .badTarget .. | .badParameters _ => .malformed
  | .unbound _ => .unbound
  | .arity .. => .arity
  | .notCallable .. => .notCallable
  | .notInteger .. | .notList .. | .incomparable .. => .wrongType
  | .divisionByZero _ => .divisionByZero
  | .tooDeep _ => .tooDeep
  | .longNumeral _ | .longInteger | .badIntegerSetting .. | .badLevel .. => .badNumber
  | .missingKey _ => .missingKey
  | .listAsKey | .badDetails .. => .badUse
  | .unreadable problem _ => .unreadable problem
  | .badEncoding _ => .badEncoding
  | .stated kind _ => kind
  | .statedArity .. => .arity

/-- A count in a message. -/
def count (n : Nat) : String :=
  String.ofList (Text.Numeral.ofNat n)

/-- How many details of a fault may be given, where the fault itself counts as one. -/
def takes (required optional : Nat) : String :=
  if optional = 0 then count (required + 1)
  else "from " ++ count (required + 1) ++ " to " ++ count (required + optional + 1)

/-- The wording for a wrong number of details. -/
def detailsText (kind : FaultKind) (given : Nat) : String :=
  let (required, optional) := kind.details?.getD ([], 0)
  let missing := required.drop given
  let complaint :=
    if missing.isEmpty then
      "takes " ++ takes required.length optional ++ " positional arguments but " ++
        count (given + 1) ++ " were given"
    else
      "missing " ++ count missing.length ++ " required positional argument" ++
        (if missing.length = 1 then "" else "s") ++ ": " ++
        " and ".intercalate (missing.map Text.quote)
  kind.label ++ ".__init__() " ++ complaint

/-- The wording of a wrong number of operands, from the texts of the name and the counts. -/
def arityText (name expected received : String) : String :=
  (if name.isEmpty then "" else name ++ ": ") ++
    "argument length mismatch, expected " ++ expected ++ " but received " ++ received

/-- The wording of every fault. -/
def message : Fault → String
  | .unexpectedEnd => "unexpected end of input"
  | .unmatchedClose => "mismatched parenthesis"
  | .cannotBind shown => "Cannot bind " ++ shown ++ ": not a symbol"
  | .badTarget keyword shown => keyword.name ++ " target must be a symbol, got " ++ shown
  | .badParameters shown => "lambda parameters must be a list of symbols, got " ++ shown
  | .unbound name => name ++ " is undefined"
  | .arity procedure expected received =>
    arityText (procedure.getD "") (count expected) (count received)
  | .notCallable _ shown => "Cannot apply non-procedure " ++ shown
  | .notInteger primitive shown => primitive.name ++ ": expected integer operands, got " ++ shown
  | .notList primitive shown => primitive.name ++ ": expected a list, got " ++ shown
  | .incomparable primitive left right =>
    primitive.name ++ ": '" ++ primitive.name ++ "' not supported between instances of '" ++
      left.label ++ "' and '" ++ right.label ++ "'"
  | .divisionByZero primitive => primitive.name ++ ": division by zero"
  | .tooDeep .reading => "form nested too deeply to read"
  | .tooDeep .evaluating => "maximum recursion depth exceeded during evaluation"
  | .tooDeep .printing => "value nested too deeply to print"
  | .longNumeral digits =>
    "Exceeds the limit (4300 digits) for integer string conversion: value has " ++ count digits ++
      " digits; use sys.set_int_max_str_digits() to increase the limit"
  | .longInteger =>
    "Exceeds the limit (4300 digits) for integer string conversion; " ++
      "use sys.set_int_max_str_digits() to increase the limit"
  | .missingKey shown => shown
  | .listAsKey => "unhashable type: 'list'"
  | .badIntegerSetting setting text =>
    setting ++ " must be an integer, got " ++ Text.quote text
  | .badLevel setting name => setting ++ ": unknown level " ++ Text.quote name
  | .unreadable problem path =>
    "[Errno " ++ count problem.code ++ "] " ++ problem.text ++ ": " ++ Text.quote path
  | .badEncoding defect => defect.message
  | .stated _ message => message
  | .statedArity _ _ _ message => message
  | .badDetails kind given => detailsText kind given

end Fault

end Lisplet
