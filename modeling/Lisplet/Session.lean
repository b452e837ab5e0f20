import Lisplet.Host
import Lisplet.Source

/-!
# Sessions

A session evaluates sources in a global frame of its own, so that what one source defines is there
for the next. Several sessions can share a machine. A text can also be run without naming a session: all
such texts share one, which is made for the first of them.

The depth limit of a call is the depth that is left at each of the guarded calls that it makes: reading a
form, evaluating it and printing the value all start from the same limit, and the steps by which the
session comes to them are not charged.

Main definitions: `Session`, `Prelude`, `Session.start`, `Session.eval`, `Session.run`,
`Session.globals`, `Session.runText`.
-/

namespace Lisplet

/-- A global frame. -/
structure Session where
  global : FrameId
  deriving DecidableEq, Repr

/-- What a session evaluates before anything else. -/
inductive Prelude where
  | absent
  /-- The file that the host's settings name, if they name one. -/
  | configured
  | source (code : String)
  deriving DecidableEq, Repr

/-- The prelude that a text asks for. -/
def Prelude.ofText : Option String → Prelude
  | none => .absent
  | some code =>
    if code = "auto" then .configured
    else if code.isEmpty then .absent
    else .source code

namespace Session

/-- Evaluates every form of a source and gives the last value. -/
def eval (limit : Nat) (s : Session) (source : String) : Run Value :=
  evalSource limit source s.global

/-- Evaluates every form of a source and gives the printed text of the last value. -/
def run (limit : Nat) (s : Session) (source : String) : Run String := do
  let v ← s.eval limit source
  Run.ofExcept (v.printed limit)

/-- A session in a new global frame. -/
def blank : Run Session := do
  let i ← Run.update Store.addStandard
  pure ⟨i⟩

/-- A session that has evaluated its prelude. -/
def start (limit : Nat) (host : Host) (prelude : Prelude) : Run Session := do
  let s ← blank
  match prelude with
  | .absent => pure s
  | .source code => do
    let _ ← s.eval limit code
    pure s
  | .configured =>
    match host.preludePath with
    | none => pure s
    | some path => do
      Run.report limit (.loadingPrelude path)
      let code ← Run.ofExcept (host.readText path)
      let _ ← s.eval limit code
      pure s

/-- The global bindings with their descriptions, without the primitives that still have their own
name. -/
def globals (limit : Nat) (s : Session) : Run (List (String × String)) := do
  let bound ← Run.query (·.bindings s.global)
  let own := bound.filter fun b =>
    match b.2 with
    | .primitive p _ => p.name ≠ b.1
    | _ => true
  let shown ← Run.lift (describeAll limit (own.map (·.2)))
  pure ((Bindings.names own).zip shown)

/-! ## The shared session -/

/-- The shared session, which is made when it is first used. -/
def shared : Option Session → Run Session
  | some s => pure s
  | none => blank

/-- Evaluates the first form of a text in a frame, or in the shared session if none is given, and gives
what comes of it with the shared session as it is then: it has been made even if the form fails. -/
def runText (limit : Nat) (common : Option Session) (text : String) (frame : Option FrameId) :
    Run (Outcome String × Option Session) :=
  match frame with
  | some i => do
    let o ← (runFirst limit text i).observe
    pure (o, common)
  | none => do
    let s ← shared common
    let o ← (runFirst limit text s.global).observe
    pure (o, some s)

/-- Runs texts in turn, each in a frame or in the shared session. -/
def runTexts (limit : Nat) (common : Option Session) :
    List (String × Option FrameId) → Run (List (Outcome String))
  | [] => pure []
  | (text, frame) :: calls => do
    let (o, common') ← runText limit common text frame
    let os ← runTexts limit common' calls
    pure (o :: os)

end Session

end Lisplet
