import Lisplet.Eval
import Lisplet.Token.Stream
import Lisplet.Value.Print

/-!
# Sources

Reading and evaluating source texts on a machine, where each form that is read is reported. The
first form of a source can be taken alone, or all forms in order. A malformed form is met only when
its turn comes: the forms before it have been evaluated by then.

Main definitions: `parseFirst`, `evalFirst`, `runFirst`, `parseNext`, `parseAll`, `evalSource`.
-/

namespace Lisplet

/-! ## The first form -/

/-- Reads the first form of a source. What follows the form is not looked at. -/
def parseFirst (limit : Nat) (source : String) : Run Value := do
  let form ← Run.ofExcept (readForm limit source)
  Run.report limit (.parsed form)
  pure form

/-- Evaluates the first form of a source in a frame. -/
def evalFirst (limit : Nat) (source : String) (i : FrameId) : Run Value := do
  let form ← parseFirst limit source
  evaluate limit form i

/-- Evaluates the first form of a source in a frame and gives the printed text of its value. -/
def runFirst (limit : Nat) (source : String) (i : FrameId) : Run String := do
  let v ← evalFirst limit source i
  Run.ofExcept (v.printed limit)

/-! ## All forms -/

/-- The next form of a reader, if it has one, and the reader after it. -/
def parseNext (limit : Nat) (r : Reader) : Run (Option (Except Fault Value) × Reader) := do
  let (next, r') := r.next limit
  match next with
  | some (.ok form) => do
    Run.report limit (.readForm form)
    pure (next, r')
  | _ => pure (next, r')

/-- Reports forms that were read. -/
def reportForms (limit : Nat) : List Value → Run Unit
  | [] => pure ()
  | form :: forms => do
    Run.report limit (.readForm form)
    reportForms limit forms

/-- Reads every form of a source, up to the first that is malformed. -/
def parseAll (limit : Nat) (source : String) : Run Reading := do
  let reading := readForms limit source
  reportForms limit reading.forms
  pure reading

/-- Evaluates forms that were read, in order, and gives the last value, or `last` if there are
none. -/
def evalForms (limit : Nat) (i : FrameId) (last : Value) : List Value → Run Value
  | [] => pure last
  | form :: forms => do
    Run.report limit (.readForm form)
    let v ← evaluate limit form i
    evalForms limit i v forms

/-- Evaluates every form of a source in a frame and gives the last value. -/
def evalSource (limit : Nat) (source : String) (i : FrameId) : Run Value := do
  let reading := readForms limit source
  let v ← evalForms limit i .noValue reading.forms
  match reading.failure with
  | none => pure v
  | some f => Run.fault f

end Lisplet
