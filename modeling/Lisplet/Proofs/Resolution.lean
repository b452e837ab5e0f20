import Lisplet.Store

/-!
# Well-formed stores and the resolution of names

In a well-formed store the outer frame of every frame is older than the frame, and every closure that
is bound anywhere captures a frame of the store. There the search for the owner of a name can be
told without a list of frames: the frame itself owns the name, or the search goes on in its outer
frame, or there is none and the name is unbound.

Main definitions: `Value.Within`, `Store.WellFormed`, `Resolves`, `Unresolved`. Main statements:
`Store.WellFormed.resolves_iff`, `Store.WellFormed.unresolved_iff`, and that binding, adding a frame
and giving away an identity keep a store well-formed.
-/

namespace Lisplet

/-! ## Values of a store -/

mutual

/-- Every closure in the value, at any depth, captures one of the first `n` frames. -/
def Value.Within (n : Nat) : Value → Prop
  | .list _ items => AllWithin n items
  | .closure _ formals body frame => frame < n ∧ AllWithin n formals ∧ body.Within n
  | _ => True

/-- Every closure in the values captures one of the first `n` frames. -/
def AllWithin (n : Nat) : List Value → Prop
  | [] => True
  | v :: vs => v.Within n ∧ AllWithin n vs

end

theorem allWithin_iff {n : Nat} {vs : List Value} : AllWithin n vs ↔ ∀ v ∈ vs, v.Within n := by
  induction vs with
  | nil => simp [AllWithin]
  | cons v vs ih => simp [AllWithin, ih]

mutual

/-- Frames that are added later do no harm. -/
theorem Value.Within.mono {n m : Nat} (h : n ≤ m) : {v : Value} → v.Within n → v.Within m
  | .list _ items, hv => by
    simp only [Value.Within] at hv ⊢
    exact AllWithin.mono h hv
  | .closure _ formals body frame, hv => by
    simp only [Value.Within] at hv ⊢
    obtain ⟨hframe, hformals, hbody⟩ := hv
    exact ⟨Nat.lt_of_lt_of_le hframe h, AllWithin.mono h hformals, Value.Within.mono h hbody⟩
  | .noValue, _ | .bool _, _ | .int _, _ | .symbol _, _ | .primitive .., _ | .text _, _ => by
    simp [Value.Within]

theorem AllWithin.mono {n m : Nat} (h : n ≤ m) : {vs : List Value} → AllWithin n vs → AllWithin m vs
  | [], _ => trivial
  | _ :: _, ⟨hv, hvs⟩ => ⟨Value.Within.mono h hv, AllWithin.mono h hvs⟩

end

/-! ## Bindings -/

namespace Bindings

/-- What is bound after binding one symbol was bound before, or is the new binding. -/
theorem mem_set {b : Bindings} {x : String} {v : Value} {p : String × Value} (h : p ∈ b.set x v) :
    p ∈ b ∨ p = (x, v) := by
  induction b with
  | nil =>
    simp only [set, List.mem_singleton] at h
    exact Or.inr h
  | cons q b ih =>
    simp only [set] at h
    -- The symbol is bound here and gets its new value in place, or it is bound further on.
    split at h
    · next hx =>
      rcases List.mem_cons.1 h with rfl | hmem
      · exact Or.inr (Prod.ext hx rfl)
      · exact Or.inl (List.mem_cons_of_mem _ hmem)
    · rcases List.mem_cons.1 h with rfl | hmem
      · exact Or.inl (List.mem_cons_self ..)
      · exact (ih hmem).imp_left (List.mem_cons_of_mem _)

/-- What is bound after binding symbols in turn was bound before, or is one of the new pairs. -/
theorem mem_setAll {pairs : List (String × Value)} {b : Bindings} {p : String × Value}
    (h : p ∈ b.setAll pairs) : p ∈ b ∨ p ∈ pairs := by
  induction pairs generalizing b with
  | nil => exact Or.inl h
  | cons q pairs ih =>
    rcases ih h with hset | hmem
    · rcases mem_set hset with hb | rfl
      · exact Or.inl hb
      · exact Or.inr (List.mem_cons_self ..)
    · exact Or.inr (List.mem_cons_of_mem _ hmem)

/-- Bindings made from pairs hold pairs only. -/
theorem mem_ofPairs {pairs : List (String × Value)} {p : String × Value} (h : p ∈ ofPairs pairs) :
    p ∈ pairs := by
  rcases mem_setAll h with hnil | hp
  · exact absurd hnil List.not_mem_nil
  · exact hp

/-- A value that is found is bound. -/
theorem mem_of_get? {b : Bindings} {x : String} {v : Value} (h : b.get? x = some v) :
    (x, v) ∈ b := by
  induction b with
  | nil => cases h
  | cons p b ih =>
    obtain ⟨y, w⟩ := p
    simp only [get?] at h
    split at h
    · next hyx =>
      cases h
      exact hyx ▸ List.mem_cons_self ..
    · exact List.mem_cons_of_mem _ (ih h)

end Bindings

/-! ## Stores -/

namespace Store

variable {s : Store} {i j o : FrameId} {f : Frame} {x : String} {v : Value}

theorem exists_frame? (h : i < s.frames.size) : ∃ f, s.frame? i = some f :=
  ⟨s.frames[i], Array.getElem?_eq_getElem h⟩

@[simp]
theorem size_frames_modify (s : Store) (i : FrameId) (g : Bindings → Bindings) :
    (s.modify i g).frames.size = s.frames.size := by
  simp [modify]

@[simp]
theorem size_frames_bind (s : Store) (i : FrameId) (x : String) (v : Value) :
    (s.bind i x v).frames.size = s.frames.size :=
  size_frames_modify ..

@[simp]
theorem size_frames_addFrame (s : Store) (b : Bindings) (outer : Option FrameId) :
    (s.addFrame b outer).2.frames.size = s.frames.size + 1 := by
  simp [addFrame]

/-- The frame that was added is a frame of the store. -/
theorem addFrame_fst_lt (s : Store) (b : Bindings) (outer : Option FrameId) :
    (s.addFrame b outer).1 < (s.addFrame b outer).2.frames.size := by
  rw [size_frames_addFrame]
  exact Nat.lt_succ_self _

@[simp]
theorem frames_addObject (s : Store) : s.addObject.2.frames = s.frames := rfl

/-- The frames after binding a symbol: the outer link stays, and what is bound is what was bound or
the new value. -/
theorem frame?_bind_cases (h : (s.bind j x v).frame? i = some f) :
    ∃ f₀, s.frame? i = some f₀ ∧ f.outer = f₀.outer ∧
      (f.bindings = f₀.bindings ∨ f.bindings = f₀.bindings.set x v) := by
  simp only [frame?, bind, modify, Array.getElem?_modify] at h
  split at h
  · obtain ⟨f₀, hf₀, rfl⟩ := Option.map_eq_some_iff.1 h
    exact ⟨f₀, hf₀, rfl, Or.inr rfl⟩
  · exact ⟨f, h, rfl, Or.inl rfl⟩

/-- The frames after adding one: those before, and the new one. -/
theorem frame?_addFrame_cases {b : Bindings} {outer : Option FrameId}
    (h : (s.addFrame b outer).2.frame? i = some f) :
    s.frame? i = some f ∨ (i = s.frames.size ∧ f = ⟨b, outer⟩) := by
  simp only [frame?, addFrame, Array.getElem?_push] at h
  split at h
  · next hi =>
    cases h
    exact Or.inr ⟨hi, rfl⟩
  · exact Or.inl h

/-- Outer links lead to older frames, and bound closures capture frames of the store. -/
structure WellFormed (s : Store) : Prop where
  outer_lt : ∀ {i f o}, s.frame? i = some f → f.outer = some o → o < i
  within : ∀ {i f p}, s.frame? i = some f → p ∈ f.bindings → p.2.Within s.frames.size

namespace WellFormed

/-- The store without frames is well-formed. -/
theorem empty : Store.empty.WellFormed where
  outer_lt := by
    intro i f o hf
    simp [Store.empty, frame?] at hf
  within := by
    intro i f p hf
    simp [Store.empty, frame?] at hf

/-- Binding a value of the store keeps it well-formed. -/
theorem bind (hs : s.WellFormed) (hv : v.Within s.frames.size) : (s.bind j x v).WellFormed where
  outer_lt := by
    intro i f o hf ho
    obtain ⟨f₀, hf₀, houter, -⟩ := frame?_bind_cases hf
    exact hs.outer_lt hf₀ (houter ▸ ho)
  within := by
    intro i f p hf hp
    rw [size_frames_bind]
    obtain ⟨f₀, hf₀, -, hb | hb⟩ := frame?_bind_cases hf
    · exact hs.within hf₀ (hb ▸ hp)
    · rcases Bindings.mem_set (hb ▸ hp) with hmem | rfl
      · exact hs.within hf₀ hmem
      · exact hv

/-- Adding a frame with values of the store, inside a frame of the store, keeps it well-formed. -/
theorem addFrame (hs : s.WellFormed) {b : Bindings} {outer : Option FrameId}
    (hb : ∀ p ∈ b, p.2.Within s.frames.size) (ho : ∀ o, outer = some o → o < s.frames.size) :
    (s.addFrame b outer).2.WellFormed where
  outer_lt := by
    intro i f o hf hfo
    rcases frame?_addFrame_cases hf with hold | ⟨rfl, rfl⟩
    · exact hs.outer_lt hold hfo
    · exact ho o hfo
  within := by
    intro i f p hf hp
    rw [size_frames_addFrame]
    -- Old frames and new ones alike hold values of the old store, which has fewer frames.
    rcases frame?_addFrame_cases hf with hold | ⟨-, rfl⟩
    · exact (hs.within hold hp).mono (Nat.le_succ _)
    · exact (hb p hp).mono (Nat.le_succ _)

/-- Adding a global frame keeps a store well-formed. -/
theorem addStandard (hs : s.WellFormed) : s.addStandard.2.WellFormed := by
  refine hs.addFrame (fun p hp => ?_) (fun o ho => by cases ho)
  obtain ⟨q, -, rfl⟩ := List.mem_map.1 hp
  trivial

/-- Giving away an identity keeps a store well-formed. -/
theorem addObject (hs : s.WellFormed) : s.addObject.2.WellFormed where
  outer_lt := hs.outer_lt
  within := hs.within

end WellFormed

/-! ## Searching the chain -/

/-- A frame that binds a name owns it. -/
theorem find?_of_binds (hf : s.frame? i = some f) (hx : f.bindings.binds x = true) :
    s.find? i x = some i := by
  have hb : (s.bindings i).binds x = true := by
    simp only [bindings, hf]
    exact hx
  rw [find?, chain, hf]
  simp [hb]

/-- The search passes over a frame that does not bind the name. -/
theorem find?_outward (hf : s.frame? i = some f) (hx : f.bindings.binds x = false)
    (ho : f.outer = some o) (hlt : o < i) : s.find? i x = s.find? o x := by
  have hb : (s.bindings i).binds x = false := by
    simp only [bindings, hf]
    exact hx
  rw [find?, chain, hf]
  simp [hb, ho, hlt, find?]

/-- The search ends at a frame that has no outer frame. -/
theorem find?_of_outer_none (hf : s.frame? i = some f) (hx : f.bindings.binds x = false)
    (ho : f.outer = none) : s.find? i x = none := by
  have hb : (s.bindings i).binds x = false := by
    simp only [bindings, hf]
    exact hx
  rw [find?, chain, hf]
  simp [hb, ho]

/-- The search fails from a frame that does not exist. -/
theorem find?_of_frame?_none (h : s.frame? i = none) (x : String) : s.find? i x = none := by
  rw [find?, chain, h]
  rfl

end Store

/-- The frame `j` is the nearest one, from the frame `i` outward, that binds the name. -/
inductive Resolves (s : Store) (x : String) : FrameId → FrameId → Prop where
  /-- A frame that binds the name is the nearest one to itself. -/
  | here {i : FrameId} {f : Frame} :
      s.frame? i = some f → f.bindings.binds x = true → Resolves s x i i
  /-- A frame that does not bind it leaves the question to its outer frame. -/
  | outward {i o j : FrameId} {f : Frame} :
      s.frame? i = some f → f.bindings.binds x = false → f.outer = some o →
      Resolves s x o j → Resolves s x i j

/-- No frame from the frame `i` outward binds the name. -/
inductive Unresolved (s : Store) (x : String) : FrameId → Prop where
  | outermost {i : FrameId} {f : Frame} :
      s.frame? i = some f → f.bindings.binds x = false → f.outer = none → Unresolved s x i
  | outward {i o : FrameId} {f : Frame} :
      s.frame? i = some f → f.bindings.binds x = false → f.outer = some o →
      Unresolved s x o → Unresolved s x i

/-- The owner of a name is a frame of the store that binds it. -/
theorem Resolves.owner {s : Store} {x : String} {i j : FrameId} (h : Resolves s x i j) :
    ∃ f, s.frame? j = some f ∧ f.bindings.binds x = true := by
  induction h with
  | here hf hx => exact ⟨_, hf, hx⟩
  | outward _ _ _ _ ih => exact ih

/-- The owner of a name has a value for it. -/
theorem Resolves.exists_get? {s : Store} {x : String} {i j : FrameId} (h : Resolves s x i j) :
    ∃ v, s.get? j x = some v := by
  obtain ⟨f, hf, hx⟩ := h.owner
  have hget : s.get? j x = f.bindings.get? x := by
    simp only [Store.get?, Store.bindings, hf]
  rw [hget]
  exact Option.isSome_iff_exists.1 hx

namespace Store.WellFormed

variable {s : Store} {i j : FrameId} {x : String}

theorem find?_of_resolves (hs : s.WellFormed) (h : Resolves s x i j) : s.find? i x = some j := by
  induction h with
  | here hf hx => exact find?_of_binds hf hx
  | outward hf hx ho _ ih => rw [find?_outward hf hx ho (hs.outer_lt hf ho), ih]

theorem find?_of_unresolved (hs : s.WellFormed) (h : Unresolved s x i) : s.find? i x = none := by
  induction h with
  | outermost hf hx ho => exact find?_of_outer_none hf hx ho
  | outward hf hx ho _ ih => rw [find?_outward hf hx ho (hs.outer_lt hf ho), ih]

/-- From every frame of a well-formed store, every name is owned by a frame or unbound. -/
theorem resolves_or_unresolved (hs : s.WellFormed) (x : String) :
    ∀ i, i < s.frames.size → (∃ j, Resolves s x i j) ∨ Unresolved s x i := by
  -- Outer frames are older, so the search is an induction on the age of the frame.
  intro i
  induction i using Nat.strongRecOn with
  | ind i ih =>
    intro hi
    obtain ⟨f, hf⟩ := exists_frame? hi
    cases hx : f.bindings.binds x with
    | true => exact Or.inl ⟨i, .here hf hx⟩
    | false =>
      cases ho : f.outer with
      | none => exact Or.inr (.outermost hf hx ho)
      | some o =>
        have hlt : o < i := hs.outer_lt hf ho
        rcases ih o hlt (Nat.lt_trans hlt hi) with ⟨j, hj⟩ | hun
        · exact Or.inl ⟨j, .outward hf hx ho hj⟩
        · exact Or.inr (.outward hf hx ho hun)

/-- The search finds a frame exactly if it is the nearest one that binds the name. -/
theorem resolves_iff (hs : s.WellFormed) (hi : i < s.frames.size) :
    Resolves s x i j ↔ s.find? i x = some j := by
  refine ⟨hs.find?_of_resolves, fun h => ?_⟩
  -- The search has one answer, so whatever the name comes to must be that answer.
  rcases hs.resolves_or_unresolved x i hi with ⟨k, hk⟩ | hun
  · rw [hs.find?_of_resolves hk] at h
    cases h
    exact hk
  · rw [hs.find?_of_unresolved hun] at h
    cases h

/-- The search fails exactly if no frame outward binds the name. -/
theorem unresolved_iff (hs : s.WellFormed) (hi : i < s.frames.size) :
    Unresolved s x i ↔ s.find? i x = none := by
  refine ⟨hs.find?_of_unresolved, fun h => ?_⟩
  rcases hs.resolves_or_unresolved x i hi with ⟨k, hk⟩ | hun
  · rw [hs.find?_of_resolves hk] at h
    cases h
  · exact hun

end Store.WellFormed

end Lisplet
