import Lisplet.Machine

/-!
# Scopes

Looking up, binding and making frames during a run. Programs use symbols only; the operations also
take any other value as a key: a value that is no symbol is bound nowhere and cannot be bound, and a
list cannot even be looked up.

Main definitions: `Scope.lookup`, `Scope.define`, `Scope.assign`, `Scope.make`, `Scope.makeFor`, and
the operations on arbitrary keys `Scope.findKey`, `Scope.getKey`, `Scope.lookupKey`,
`Scope.containsKey`, `Scope.bindKey`, `Scope.bindKeys`.
-/

namespace Lisplet.Scope

/-- The value of a symbol as seen from a frame. -/
def lookup (i : FrameId) (x : String) : Run Value := do
  match ← Run.query (·.lookup? i x) with
  | some v => pure v
  | none => Run.fault (.unbound x)

/-- Binds a symbol in a frame. -/
def define (i : FrameId) (x : String) (v : Value) : Run Unit :=
  Run.update fun s => ((), s.bind i x v)

/-- Changes the value of a symbol in the frame that owns it, as seen from a frame. -/
def assign (i : FrameId) (x : String) (v : Value) : Run Unit := do
  match ← Run.query (·.find? i x) with
  | some j => define j x v
  | none => Run.fault (.unbound x)

/-- Makes a frame from keys and values; there is no new frame if a key cannot be bound. -/
def make (limit : Nat) (pairs : List (Value × Value)) (outer : Option FrameId) : Run FrameId :=
  if pairs.any (·.1.isList) then Run.fault .listAsKey
  else
    match Bindings.collect pairs with
    | (b, none) => Run.update fun s => s.addFrame b outer
    | (_, some bad) => Run.faultShowing limit bad .cannotBind

/-- Makes the frame in which the body of a closure is evaluated: the parameters are bound to the
arguments by position, inside the frame that the closure was made in. -/
def makeFor (limit : Nat) (formals args : List Value) (captured : FrameId) : Run FrameId :=
  if args.length = formals.length then make limit (formals.zip args) (some captured)
  else Run.fault (.arity (some Keyword.lambda.name) formals.length args.length)

/-! ## Arbitrary keys -/

/-- The nearest frame of the chain that binds a key. -/
def findKey (limit : Nat) (i : FrameId) (key : Value) : Run FrameId := do
  match key with
  | .list .. => Run.fault .listAsKey
  | key =>
    match ← Run.query fun s => key.name?.bind (s.find? i) with
    | some j => pure j
    | none => do
      let title ← Run.lift (key.title limit)
      Run.fault (.unbound title)

/-- The value of a key in a frame itself. -/
def getKey (limit : Nat) (i : FrameId) (key : Value) : Run Value := do
  match key with
  | .list .. => Run.fault .listAsKey
  | key =>
    match ← Run.query fun s => key.name?.bind (s.get? i) with
    | some v => pure v
    | none => Run.faultShowing limit key .missingKey

/-- The value of a key as seen from a frame. -/
def lookupKey (limit : Nat) (i : FrameId) (key : Value) : Run Value := do
  let j ← findKey limit i key
  getKey limit j key

/-- Whether a key is bound, as seen from a frame. -/
def containsKey (limit : Nat) (i : FrameId) (key : Value) : Run Bool := do
  match ← (findKey limit i key).observe with
  | .value _ => pure true
  | .fault (.unbound _) => pure false
  | .fault f => Run.fault f
  | .exhausted => Run.exhausted

/-- Binds a key in a frame. -/
def bindKey (limit : Nat) (i : FrameId) (key v : Value) : Run Unit :=
  match key with
  | .symbol x => define i x v
  | key => Run.faultShowing limit key .cannotBind

/-- Binds keys in a frame, in order, up to the first that cannot be bound. -/
def bindKeys (limit : Nat) (i : FrameId) (pairs : List (Value × Value)) : Run Unit :=
  if pairs.any (·.1.isList) then Run.fault .listAsKey
  else do
    let (b, bad) := Bindings.collect pairs
    Run.update fun s => ((), s.modify i (·.setAll b))
    match bad with
    | none => pure ()
    | some key => Run.faultShowing limit key .cannotBind

end Lisplet.Scope
