import Lisplet.Value.Describe

/-!
# Frames

A frame binds symbols to values and remembers the order in which they were first bound: binding a
symbol again changes its value and not its place. Every frame but a global one has an outer frame.

Main definitions: `Bindings`, `Bindings.set`, `Bindings.ofPairs`, `Frame`, `Bindings.collect`.
-/

namespace Lisplet

/-- Symbols with their values, in the order of first binding. -/
abbrev Bindings := List (String × Value)

namespace Bindings

/-- The value bound to a symbol. -/
def get? : Bindings → String → Option Value
  | [], _ => none
  | (y, w) :: b, x => if y = x then some w else get? b x

/-- Whether a symbol is bound. -/
def binds (b : Bindings) (x : String) : Bool :=
  (b.get? x).isSome

/-- The bound symbols, in order. -/
def names (b : Bindings) : List String :=
  b.map (·.1)

/-- Binds a symbol, in its old place if it has one and at the end otherwise. -/
def set (x : String) (v : Value) : Bindings → Bindings
  | [] => [(x, v)]
  | (y, w) :: b => if y = x then (y, v) :: b else (y, w) :: set x v b

/-- Binds symbols one after the other. -/
def setAll (b : Bindings) (pairs : List (String × Value)) : Bindings :=
  pairs.foldl (fun b p => b.set p.1 p.2) b

/-- Bindings from pairs: a repeated symbol keeps its first place and takes its last value. -/
def ofPairs (pairs : List (String × Value)) : Bindings :=
  setAll [] pairs

/-- The symbol that a pair binds, with its value. -/
def named? (p : Value × Value) : Option (String × Value) :=
  p.1.name?.map (·, p.2)

/-- What binding arbitrary keys comes to: the bindings that are made, and the first key that is no
symbol, at which binding stops. Repeated keys are merged before anything is bound, so a symbol that
comes before the bad key takes its last value even if that stands after it. -/
def collect (pairs : List (Value × Value)) : Bindings × Option Value :=
  let merged := ofPairs (pairs.filterMap named?)
  match pairs.find? (·.1.name?.isNone) with
  | none => (merged, none)
  | some bad =>
    let early := (pairs.takeWhile (·.1.name?.isSome)).filterMap named?
    (merged.filter fun p => binds early p.1, some bad.1)

/-- The text of bindings, as frames show them. -/
def describe (limit : Nat) (b : Bindings) : Outcome String := do
  let shown ← describeAll limit (b.map (·.2))
  let entries := List.zipWith (fun x s => x ++ ": " ++ s) b.names shown
  pure ("\x7b" ++ ", ".intercalate entries ++ "\x7d")

@[simp]
theorem get?_nil (x : String) : get? [] x = none := rfl

@[simp]
theorem get?_set_self (b : Bindings) (x : String) (v : Value) : (b.set x v).get? x = some v := by
  induction b with
  | nil => simp [set, get?]
  | cons p b ih => by_cases h : p.1 = x <;> simp [set, get?, h, ih]

theorem get?_set_of_ne (b : Bindings) {x y : String} (v : Value) (h : x ≠ y) :
    (b.set x v).get? y = b.get? y := by
  induction b with
  | nil => simp [set, get?, h]
  | cons p b ih =>
    by_cases hp : p.1 = x
    · simp [set, get?, hp, h]
    · simp [set, get?, hp, ih]

end Bindings

/-- One scope: bindings and the next scope outward. -/
structure Frame where
  bindings : Bindings
  outer : Option FrameId

end Lisplet
