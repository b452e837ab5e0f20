import Lisplet.Frame

/-!
# Stores

All frames live in one store and refer to each other by their place in it. A frame's outer frame is
older than the frame itself, so the chain from any frame outward ends. The store also counts the
closures and lists made so far, which gives each of them an identity of its own.

Main definitions: `Store`, `Store.chain`, `Store.find?`, `Store.lookup?`, `Store.bind`,
`Store.addFrame`, `Store.addObject`, `Store.addClosure`.
-/

namespace Lisplet

/-- The frames made so far, oldest first, and the number of identities given away so far. -/
structure Store where
  frames : Array Frame
  objects : Nat
  deriving Inhabited

namespace Store

/-- The store without frames, closures and lists. -/
def empty : Store := ⟨#[], 0⟩

/-- The frame of an identifier. -/
def frame? (s : Store) (i : FrameId) : Option Frame :=
  s.frames[i]?

/-- The bindings of a frame; a frame that does not exist binds nothing. -/
def bindings (s : Store) (i : FrameId) : Bindings :=
  match s.frame? i with
  | some f => f.bindings
  | none => []

/-- The frame and the frames outward from it, nearest first. -/
def chain (s : Store) (i : FrameId) : List FrameId :=
  match s.frame? i with
  | none => []
  | some f =>
    i :: match f.outer with
      | none => []
      | some o => if o < i then s.chain o else []
termination_by i

/-- The nearest frame of the chain that binds the symbol. -/
def find? (s : Store) (i : FrameId) (x : String) : Option FrameId :=
  (s.chain i).find? fun j => (s.bindings j).binds x

/-- The value of a symbol in a frame itself. -/
def get? (s : Store) (i : FrameId) (x : String) : Option Value :=
  (s.bindings i).get? x

/-- The value of a symbol as seen from a frame. -/
def lookup? (s : Store) (i : FrameId) (x : String) : Option Value :=
  (s.find? i x).bind (s.get? · x)

/-- Changes the bindings of a frame. -/
def modify (s : Store) (i : FrameId) (f : Bindings → Bindings) : Store :=
  { s with frames := s.frames.modify i fun fr => { fr with bindings := f fr.bindings } }

/-- Binds a symbol in a frame. -/
def bind (s : Store) (i : FrameId) (x : String) (v : Value) : Store :=
  s.modify i (Bindings.set x v)

/-- Adds a frame. -/
def addFrame (s : Store) (b : Bindings) (outer : Option FrameId) : FrameId × Store :=
  (s.frames.size, { s with frames := s.frames.push ⟨b, outer⟩ })

/-- Gives away an identity. -/
def addObject (s : Store) : ObjectId × Store :=
  (s.objects, { s with objects := s.objects + 1 })

/-- Adds a closure over a frame. -/
def addClosure (s : Store) (formals : List Value) (body : Value) (frame : FrameId) :
    Value × Store :=
  let (id, s') := s.addObject
  (.closure id formals body frame, s')

/-- The bindings of a global frame: every primitive under its name. -/
def standardBindings (home : FrameId) : Bindings :=
  Primitive.all.map fun p => (p.name, .primitive p home)

/-- Adds a global frame that binds every primitive. -/
def addStandard (s : Store) : FrameId × Store :=
  s.addFrame (standardBindings s.frames.size) none

/-- The text of a frame: its bindings, and a mark if it has an outer frame. -/
def describeFrame (limit : Nat) (s : Store) (i : FrameId) : Outcome String := do
  let shown ← (s.bindings i).describe limit
  let inner := ((s.frame? i).bind (·.outer)).isSome
  pure (if inner then shown ++ " -> ..." else shown)

/-- The texts of the bindings of frames, in order. -/
def describeEach (limit : Nat) (s : Store) : List FrameId → Outcome (List String)
  | [] => pure []
  | i :: is => do
    let shown ← (s.bindings i).describe limit
    let rest ← s.describeEach limit is
    pure (shown :: rest)

/-- The text of a frame and all frames outward from it. -/
def describeChain (limit : Nat) (s : Store) (i : FrameId) : Outcome String := do
  let shown ← s.describeEach limit (s.chain i)
  pure ("<Environment chain: " ++ " -> ".intercalate shown ++ ">")

end Store

end Lisplet
