import Lisplet.Proofs.Pairing

/-!
# Reachable frames

A value refers to frames through the closures in it, at any depth, and has identities that its store
has given away. From some frames one reaches others along outer links and along the frames that
closures in bound values capture. In a regular store all that can be reached is there.

Main definitions: `Value.captured`, `Value.identities`, `Store.Reachable`, `Store.Regular`. Main
statements: `Frame.paired_self`, `Value.Paired.captured`, `Store.WellFormed.lt_of_reachable`.
-/

namespace Lisplet

/-! ## What a value refers to -/

mutual

/-- The frames that the closures in a value capture. -/
def Value.captured : Value → List FrameId
  | .list _ items => capturedAll items
  | .closure _ formals body frame => frame :: (capturedAll formals ++ body.captured)
  | _ => []

/-- The frames that the closures in values capture. -/
def capturedAll : List Value → List FrameId
  | [] => []
  | v :: vs => v.captured ++ capturedAll vs

end

mutual

/-- The identities of a value and of the lists and closures in it. -/
def Value.identities : Value → List ObjectId
  | .list id items => id.toList ++ identitiesAll items
  | .closure id formals body _ => id :: (identitiesAll formals ++ body.identities)
  | _ => []

/-- The identities of values and of what is in them. -/
def identitiesAll : List Value → List ObjectId
  | [] => []
  | v :: vs => v.identities ++ identitiesAll vs

end

mutual

theorem Value.within_iff {n : Nat} : {v : Value} → (v.Within n ↔ ∀ a ∈ v.captured, a < n)
  | .list _ items => by simp [Value.Within, Value.captured, allWithin_iff_captured]
  | .closure _ formals body frame => by
    simp [Value.Within, Value.captured, allWithin_iff_captured, Value.within_iff, or_imp, forall_and]
  | .noValue | .bool _ | .int _ | .symbol _ | .primitive .. | .text _ => by
    simp [Value.Within, Value.captured]

theorem allWithin_iff_captured {n : Nat} :
    {vs : List Value} → (AllWithin n vs ↔ ∀ a ∈ capturedAll vs, a < n)
  | [] => by simp [AllWithin, capturedAll]
  | v :: vs => by
    simp [AllWithin, capturedAll, Value.within_iff, allWithin_iff_captured, or_imp, forall_and]

end

variable {κ : Pairing}

mutual

/-- A value is paired with itself if all that it refers to is. -/
theorem Value.paired_self (hname : ∀ x, κ.name x x) :
    {v : Value} → (∀ a ∈ v.captured, κ.frame a a) → (∀ id ∈ v.identities, κ.object id id) →
    v.Paired κ v
  | .noValue, _, _ => .noValue
  | .bool _, _, _ => .bool
  | .int _, _, _ => .int
  | .symbol _, _, _ => .symbol (hname _)
  | .list id items, hframes, hobjects => by
    simp only [Value.captured] at hframes
    simp only [Value.identities, List.mem_append, or_imp, forall_and] at hobjects
    refine .list ?_ (allPaired_self hname hframes hobjects.2)
    cases id with
    | none => exact .none
    | some id => exact .some (hobjects.1 id (by simp))
  | .primitive .., _, _ => .primitive
  | .closure id formals body frame, hframes, hobjects => by
    simp only [Value.captured, List.forall_mem_cons, List.forall_mem_append] at hframes
    simp only [Value.identities, List.forall_mem_cons, List.forall_mem_append] at hobjects
    exact .closure hobjects.1 (allPaired_self hname hframes.2.1 hobjects.2.1)
      (Value.paired_self hname hframes.2.2 hobjects.2.2) hframes.1
  | .text _, _, _ => .text

theorem allPaired_self (hname : ∀ x, κ.name x x) :
    {vs : List Value} → (∀ a ∈ capturedAll vs, κ.frame a a) →
    (∀ id ∈ identitiesAll vs, κ.object id id) → AllPaired κ vs vs
  | [], _, _ => .nil
  | _ :: _, hframes, hobjects => by
    simp only [capturedAll, List.forall_mem_append] at hframes
    simp only [identitiesAll, List.forall_mem_append] at hobjects
    exact .cons (Value.paired_self hname hframes.1 hobjects.1)
      (allPaired_self hname hframes.2 hobjects.2)

end

mutual

/-- Paired values capture paired frames only. -/
theorem Value.Paired.captured {v w : Value} :
    v.Paired κ w → ∀ a ∈ v.captured, ∃ b, κ.frame a b
  | .list _ hvs => hvs.captured
  | .closure _ hvs hv ha => by
    simp only [Value.captured, List.forall_mem_cons, List.forall_mem_append]
    exact ⟨⟨_, ha⟩, hvs.captured, hv.captured⟩
  | .noValue | .bool | .int | .symbol _ | .primitive | .text => by simp [Value.captured]

theorem AllPaired.captured {vs ws : List Value} :
    AllPaired κ vs ws → ∀ a ∈ capturedAll vs, ∃ b, κ.frame a b
  | .nil => by simp [capturedAll]
  | .cons hv hvs => by
    simp only [capturedAll, List.forall_mem_append]
    exact ⟨hv.captured, hvs.captured⟩

end

mutual

/-- Paired values have paired identities only. -/
theorem Value.Paired.identities {v w : Value} :
    v.Paired κ w → ∀ id ∈ v.identities, ∃ id', κ.object id id'
  | .list hid hvs => by
    simp only [Value.identities, List.forall_mem_append]
    refine ⟨?_, hvs.identities⟩
    cases hid with
    | none => simp
    | some hid => simpa using ⟨_, hid⟩
  | .closure hid hvs hv _ => by
    simp only [Value.identities, List.forall_mem_cons, List.forall_mem_append]
    exact ⟨⟨_, hid⟩, hvs.identities, hv.identities⟩
  | .noValue | .bool | .int | .symbol _ | .primitive | .text => by simp [Value.identities]

theorem AllPaired.identities {vs ws : List Value} :
    AllPaired κ vs ws → ∀ id ∈ identitiesAll vs, ∃ id', κ.object id id'
  | .nil => by simp [identitiesAll]
  | .cons hv hvs => by
    simp only [identitiesAll, List.forall_mem_append]
    exact ⟨hv.identities, hvs.identities⟩

end

/-! ## What a store holds -/

namespace Store

variable {s : Store} {roots : List FrameId}

/-- The frames that can be reached from some frames, along outer links and along the frames that
closures in bound values capture. -/
inductive Reachable (s : Store) (roots : List FrameId) : FrameId → Prop where
  | root {a : FrameId} : a ∈ roots → Reachable s roots a
  | outer {a o : FrameId} {f : Frame} :
      Reachable s roots a → s.frame? a = some f → f.outer = some o → Reachable s roots o
  | bound {a b : FrameId} {f : Frame} {p : String × Value} :
      Reachable s roots a → s.frame? a = some f → p ∈ f.bindings → b ∈ p.2.captured →
      Reachable s roots b

/-- A well-formed store that has given away the identities of all bound values. -/
structure Regular (s : Store) : Prop extends WellFormed s where
  issued : ∀ {i f p}, s.frame? i = some f → p ∈ f.bindings → ∀ id ∈ p.2.identities, id < s.objects

theorem Regular.empty : Store.empty.Regular where
  toWellFormed := .empty
  issued := by
    intro i f p hf
    simp [Store.empty, frame?] at hf

/-- Adding a global frame keeps a store regular. -/
theorem Regular.addStandard (hs : s.Regular) : s.addStandard.2.Regular where
  toWellFormed := hs.toWellFormed.addStandard
  issued := by
    intro i f p hf hp
    rcases frame?_addFrame_cases hf with hold | ⟨-, rfl⟩
    · exact hs.issued hold hp
    · obtain ⟨q, -, rfl⟩ := List.mem_map.1 hp
      simp [Value.identities]

/-- From a new global frame nothing else can be reached. -/
theorem eq_of_reachable_standard {g home a : FrameId}
    (hg : s.frame? g = some ⟨standardBindings home, none⟩) (h : s.Reachable [g] a) : a = g := by
  induction h with
  | root ha => exact List.mem_singleton.1 ha
  | outer _ hf ho ih =>
    rw [ih, hg] at hf
    cases hf
    cases ho
  | bound _ hf hp hb ih =>
    rw [ih, hg] at hf
    cases hf
    obtain ⟨q, -, rfl⟩ := List.mem_map.1 hp
    simp [Value.captured] at hb

/-- What can be reached from frames of a well-formed store is in the store. -/
theorem WellFormed.lt_of_reachable (hs : s.WellFormed) (hroots : ∀ a ∈ roots, a < s.frames.size)
    {a : FrameId} (h : s.Reachable roots a) : a < s.frames.size := by
  induction h with
  | root ha => exact hroots _ ha
  | outer _ hf ho ih => exact Nat.lt_trans (hs.outer_lt hf ho) ih
  | bound _ hf hp hb _ => exact Value.within_iff.1 (hs.within hf hp) _ hb

end Store

/-- A frame is paired with itself if its outer frame is and all that its values refer to is. -/
theorem Frame.paired_self (hname : ∀ x, κ.name x x) {f : Frame}
    (hcaptured : ∀ p ∈ f.bindings, ∀ a ∈ p.2.captured, κ.frame a a)
    (hissued : ∀ p ∈ f.bindings, ∀ id ∈ p.2.identities, κ.object id id)
    (houter : ∀ o, f.outer = some o → κ.frame o o) : f.Paired κ f where
  bindings := List.forall₂_same.2 fun p hp =>
    ⟨hname _, Value.paired_self hname (hcaptured p hp) (hissued p hp)⟩
  outer := by
    cases ho : f.outer with
    | none => exact .none
    | some o => exact .some (houter o ho)

end Lisplet
