import Lisplet.Value.Describe

/-!
# The log

What happens during a run is reported as events. An event has a level, a source and a message; a log
keeps the events at or above its threshold, in order. A message is worked out only for an event that
is kept.

Main definitions: `Level`, `Event`, `LogRecord`, `Log`.
-/

namespace Lisplet

/-- Where a server listens or a client calls from. -/
structure Address where
  host : String
  port : Int
  deriving DecidableEq, Repr

/-- An address in messages. -/
def Address.text (a : Address) : String :=
  a.host ++ ":" ++ String.ofList (Text.Numeral.ofInt a.port)

/-- The levels of importance. -/
inductive Level where
  | unset
  | debug
  | info
  | warning
  | error
  | critical
  deriving DecidableEq, Repr

namespace Level

/-- The rank of a level. -/
def rank : Level → Nat
  | .unset => 0
  | .debug => 10
  | .info => 20
  | .warning => 30
  | .error => 40
  | .critical => 50

/-- The name of a level in records. -/
def label : Level → String
  | .unset => "NOTSET"
  | .debug => "DEBUG"
  | .info => "INFO"
  | .warning => "WARNING"
  | .error => "ERROR"
  | .critical => "CRITICAL"

/-- The level of an upper-case name; two levels have a second name. -/
def ofName? (name : String) : Option Level :=
  [("CRITICAL", critical), ("FATAL", critical), ("ERROR", error), ("WARN", warning),
    ("WARNING", warning), ("INFO", info), ("DEBUG", debug), ("NOTSET", unset)].lookup name

/-- The level that a threshold stands for: one that is not set keeps warnings and above. -/
def effective : Level → Level
  | .unset => .warning
  | l => l

end Level

/-- What is reported. -/
inductive Event where
  /-- A form of a source was read. -/
  | readForm (form : Value)
  /-- The first form of a source was read on its own. -/
  | parsed (form : Value)
  | keyword (k : Keyword)
  /-- A closure with so many parameters was made. -/
  | closureMade (formals : Nat)
  /-- A closure with these parameters is applied to so many arguments. -/
  | applied (formals : List Value) (args : Nat)
  | loadingPrelude (path : String)
  /-- A request's code failed with a fault of the language. -/
  | evaluationFailed (fault : Fault)
  /-- A request's code failed with a fault of the host. -/
  | unexpectedFailure
  | connected (peer : Address)
  | disconnected (peer : Address)
  | listening (address : Address)

namespace Event

/-- The level of an event. -/
def level : Event → Level
  | .readForm _ | .parsed _ | .keyword _ | .closureMade _ | .applied .. => .debug
  | .loadingPrelude _ | .evaluationFailed _ | .connected _ | .disconnected _ | .listening _ => .info
  | .unexpectedFailure => .error

/-- The part of the program that reports an event. -/
def source : Event → String
  | .readForm _ | .parsed _ => "tinyscheme.reader.parser"
  | .keyword _ => "tinyscheme.evaluation.evaluator"
  | .closureMade _ => "tinyscheme.evaluation.special_forms.lambda_form"
  | .applied .. => "tinyscheme.evaluation.apply"
  | .loadingPrelude _ => "tinyscheme.interpreter"
  | .evaluationFailed _ | .unexpectedFailure | .connected _ | .disconnected _ | .listening _ =>
    "tinyscheme.repl_server"

/-- The wording of an event. -/
def message (limit : Nat) : Event → Outcome String
  | .readForm form => do
    let shown ← form.describe limit
    pure ("read form " ++ shown)
  | .parsed form => do
    let shown ← form.describe limit
    pure ("parsed " ++ shown)
  | .keyword k => pure ("special form " ++ k.name)
  | .closureMade formals => pure ("closure over " ++ Fault.count formals ++ " formal(s)")
  | .applied formals args => do
    let names ← titleAll limit formals
    pure ("apply " ++ describeClosure names ++ " to " ++ Fault.count args ++ " argument(s)")
  | .loadingPrelude path => pure ("loading prelude " ++ path)
  | .evaluationFailed fault => pure ("evaluation failed: " ++ fault.message)
  | .unexpectedFailure => pure "unexpected failure evaluating request"
  | .connected peer => pure ("client connected from " ++ peer.text)
  | .disconnected peer => pure ("client " ++ peer.text ++ " disconnected")
  | .listening address => pure ("tinyscheme REPL listening on " ++ address.text)

end Event

/-- An event as the log keeps it. -/
structure LogRecord where
  level : Level
  source : String
  message : String
  deriving DecidableEq, Repr

/-- The records kept so far, and the least level that is kept. -/
structure Log where
  threshold : Level
  records : Array LogRecord

namespace Log

/-- A log that has kept nothing yet. -/
def new (threshold : Level) : Log := ⟨threshold, #[]⟩

/-- Whether a log keeps events of a level. -/
def keeps (log : Log) (l : Level) : Bool :=
  decide (log.threshold.effective.rank ≤ l.rank)

/-- Keeps a record. -/
def add (log : Log) (r : LogRecord) : Log :=
  { log with records := log.records.push r }

end Log

end Lisplet
