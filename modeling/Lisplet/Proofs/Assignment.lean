import Lisplet.Proofs.Irrelevance

/-!
# What a write changes for whom

Chains share frames, so one write is seen from many frames, and it is hidden from others by bindings that
are nearer to them. A definition goes to one given frame and is seen from the frames whose chain comes to
it before any other frame that binds the name; from these it becomes the owner. An assignment goes to the
frame that owns the name, so it is seen from exactly the frames that have the same owner, and it changes
the owner of nothing. All other names and all other frames see what they saw.

Main definitions: `Visible`, `Scope.Write`. Main statements: `Store.WellFormed.lookup?_bind_of_visible`,
`Store.WellFormed.lookup?_bind_of_hidden`, `Store.WellFormed.find?_bind_owner`, `Scope.write_laws`.
-/

namespace Lisplet

/-! ## Writes to a store -/

/-- The frame `j` is on the chain of the frame `i`, and no frame before it on the chain binds the name. -/
inductive Visible (s : Store) (x : String) : FrameId → FrameId → Prop where
  | here {i : FrameId} {f : Frame} : s.frame? i = some f → Visible s x i i
  | outward {i o j : FrameId} {f : Frame} :
      s.frame? i = some f → f.bindings.binds x = false → f.outer = some o →
      Visible s x o j → Visible s x i j

theorem Visible.exists_frame? {s : Store} {x : String} {i j : FrameId} (h : Visible s x i j) :
    ∃ f, s.frame? j = some f := by
  induction h with
  | here hf => exact ⟨_, hf⟩
  | outward _ _ _ _ ih => exact ih

/-- The owner of a name is visible. -/
theorem Resolves.visible {s : Store} {x : String} {i j : FrameId} (h : Resolves s x i j) :
    Visible s x i j := by
  induction h with
  | here hf _ => exact .here hf
  | outward hf hx ho _ ih => exact .outward hf hx ho ih

namespace Store

variable {s : Store} {x y : String} {i j g : FrameId} {f : Frame} {v : Value}

theorem get?_of_frame? (h : s.frame? i = some f) : s.get? i x = f.bindings.get? x := by
  rw [get?, bindings, h]

/-- The owner that the search finds has a value for the name. -/
theorem exists_get?_of_find? (h : s.find? i x = some j) : ∃ w, s.get? j x = some w := by
  have hbinds := List.find?_some h
  exact Option.isSome_iff_exists.1 hbinds

theorem lookup?_of_find? (h : s.find? i x = some j) : s.lookup? i x = s.get? j x := by
  rw [lookup?, h, Option.bind_some]

theorem frame?_bind_self (h : s.frame? i = some f) (x : String) (v : Value) :
    (s.bind i x v).frame? i = some { f with bindings := f.bindings.set x v } := by
  rw [frame?_bind, h, Option.map_some, if_pos rfl]

theorem frame?_bind_of_ne (h : i ≠ j) (x : String) (v : Value) :
    (s.bind j x v).frame? i = s.frame? i := by
  rw [frame?_bind]
  simp [Ne.symm h]

namespace WellFormed

theorem resolves_of_find? (hs : s.WellFormed) (h : s.find? i x = some j) : Resolves s x i j := by
  apply (hs.resolves_iff ?_).2 h
  cases hf : s.frame? i with
  | some f => exact lt_size_of_frame? hf
  | none =>
    rw [find?_of_frame?_none hf] at h
    cases h

/-- A frame that binds a name is visible from the frames that it owns the name for. -/
theorem visible_iff_of_get? (hs : s.WellFormed) (hj : s.get? j x = some v) :
    Visible s x g j ↔ s.find? g x = some j := by
  refine ⟨fun h => ?_, fun h => (hs.resolves_of_find? h).visible⟩
  induction h with
  | here hf =>
    rw [get?_of_frame? hf] at hj
    exact find?_of_binds hf (Option.isSome_iff_exists.2 ⟨_, hj⟩)
  | outward hf hx ho _ ih => rw [find?_outward hf hx ho (hs.outer_lt hf ho), ih hj]

/-- A frame to which a name is written owns it for all frames from which it is visible. -/
theorem find?_bind_of_visible (hs : s.WellFormed) (h : Visible s x g j) (v : Value) :
    (s.bind j x v).find? g x = some j := by
  induction h with
  | here hf => exact find?_of_binds (frame?_bind_self hf x v) (by simp [Bindings.binds])
  | @outward i o j f hf hx ho hvisible ih =>
    -- The chain does not come back to a frame, but then the name would be found there just as well.
    by_cases hi : i = j
    · subst hi
      exact find?_of_binds (frame?_bind_self hf x v) (by simp [Bindings.binds])
    · rw [find?_outward ((frame?_bind_of_ne hi x v).trans hf) hx ho (hs.outer_lt hf ho), ih]

/-- What is written to a frame changes no owner for the frames from which it is hidden. -/
theorem find?_bind_of_hidden (hs : s.WellFormed) (v : Value) (h : ¬ Visible s x g j) :
    (s.bind j x v).find? g x = s.find? g x := by
  -- Outer frames are older: the search from the frame is followed by the age of the frame.
  induction g using Nat.strongRecOn with
  | ind g ih =>
    cases hf : s.frame? g with
    | none =>
      have hf' : (s.bind j x v).frame? g = none := by rw [frame?_bind, hf, Option.map_none]
      rw [find?_of_frame?_none hf, find?_of_frame?_none hf']
    | some f =>
      have hg : g ≠ j := fun heq => h (heq ▸ .here hf)
      have hf' := (frame?_bind_of_ne hg x v).trans hf
      cases hx : f.bindings.binds x with
      | true => rw [find?_of_binds hf hx, find?_of_binds hf' hx]
      | false =>
        cases ho : f.outer with
        | none => rw [find?_of_outer_none hf hx ho, find?_of_outer_none hf' hx ho]
        | some o =>
          have hlt := hs.outer_lt hf ho
          rw [find?_outward hf hx ho hlt, find?_outward hf' hx ho hlt]
          exact ih o hlt fun hvisible => h (.outward hf hx ho hvisible)

theorem lookup?_bind_of_visible (hs : s.WellFormed) (h : Visible s x g j) (v : Value) :
    (s.bind j x v).lookup? g x = some v := by
  obtain ⟨f, hf⟩ := h.exists_frame?
  rw [lookup?_of_find? (hs.find?_bind_of_visible h v), get?_of_frame? (frame?_bind_self hf x v)]
  exact f.bindings.get?_set_self x v

theorem lookup?_bind_of_hidden (hs : s.WellFormed) (v : Value) (h : ¬ (y = x ∧ Visible s x g j)) :
    (s.bind j x v).lookup? g y = s.lookup? g y := by
  by_cases hy : y = x
  · subst hy
    have hhidden : ¬ Visible s y g j := fun hvisible => h ⟨rfl, hvisible⟩
    rw [lookup?, lookup?, hs.find?_bind_of_hidden v hhidden]
    cases hg : s.find? g y with
    | none => rfl
    | some k =>
      -- The owner is visible, so it is not the frame that was written to.
      have hk : j ≠ k := fun heq => hhidden (heq ▸ (hs.resolves_of_find? hg).visible)
      rw [Option.bind_some, Option.bind_some, get?_bind, if_neg fun hc => hk hc.1]
  · exact ((AgreesExcept.bind_self s j x v).lookup?_eq hy g).symm

/-- A new value for a name in the frame that owns it changes the owner of no name. -/
theorem find?_bind_owner (hs : s.WellFormed) (h : s.find? i x = some j) (v : Value) (g : FrameId)
    (y : String) : (s.bind j x v).find? g y = s.find? g y := by
  obtain ⟨w, hw⟩ := exists_get?_of_find? h
  by_cases hy : y = x
  · subst hy
    by_cases hvisible : Visible s y g j
    · rw [hs.find?_bind_of_visible hvisible, (hs.visible_iff_of_get? hw).1 hvisible]
    · exact hs.find?_bind_of_hidden v hvisible
  · exact ((AgreesExcept.bind_self s j x v).find?_eq hy g).symm

end WellFormed

end Store

/-! ## Writes during a run -/

namespace Scope

variable {limit : Nat} {g env : FrameId} {t x : String} {v : Value} {m : Machine}

/-- A search asks the store and changes nothing. -/
theorem findKey_symbol (limit : Nat) (i : FrameId) (x : String) (m : Machine) :
    findKey limit i (.symbol x) m = (match m.store.find? i x with
      | some j => .value j
      | none => .fault (.unbound x), m) := by
  show (Run.query (fun s => s.find? i x) >>= _) m = _
  rw [Run.bind_of_value _ (Run.query_apply ..)]
  cases m.store.find? i x <;> rfl

theorem containsKey_symbol (limit : Nat) (i : FrameId) (x : String) (m : Machine) :
    containsKey limit i (.symbol x) m = (.value (m.store.find? i x).isSome, m) := by
  have hobserve : (findKey limit i (.symbol x)).observe m = (.value (match m.store.find? i x with
      | some j => .value j
      | none => .fault (.unbound x)), m) := by
    rw [Run.observe, findKey_symbol]
  rw [containsKey, Run.bind_of_value _ hobserve]
  cases m.store.find? i x <;> rfl

theorem getKey_symbol (limit : Nat) {i : FrameId} (h : m.store.get? i x = some v) :
    getKey limit i (.symbol x) m = (.value v, m) := by
  show (Run.query (fun s => s.get? i x) >>= _) m = _
  rw [Run.bind_of_value _ (Run.query_apply ..), h]
  rfl

/-- Finding the owner of a symbol and asking it is looking the symbol up: the owner always has a value. -/
theorem lookupKey_symbol (limit : Nat) (i : FrameId) (x : String) (m : Machine) :
    lookupKey limit i (.symbol x) m = lookup i x m := by
  have hfindKey := findKey_symbol limit i x m
  rw [lookup_apply, lookupKey]
  cases hfind : m.store.find? i x with
  | none =>
    rw [hfind] at hfindKey
    rw [Run.bind_of_fault _ hfindKey, Store.lookup?, hfind]
    rfl
  | some j =>
    rw [hfind] at hfindKey
    obtain ⟨w, hw⟩ := Store.exists_get?_of_find? hfind
    rw [Run.bind_of_value _ hfindKey, getKey_symbol limit hw, Store.lookup?_of_find? hfind, hw]

theorem lookupKey_of_lookup? (limit : Nat) {m : Machine} (h : m.store.lookup? g t = some v) :
    (lookupKey limit g (.symbol t) m).1 = .value v := by
  rw [lookupKey_symbol, lookup_apply, h]

theorem lookupKey_congr (limit : Nat) {m m' : Machine} (h : m'.store.lookup? g t = m.store.lookup? g t) :
    (lookupKey limit g (.symbol t) m').1 = (lookupKey limit g (.symbol t) m).1 := by
  rw [lookupKey_symbol, lookupKey_symbol, lookup_apply, lookup_apply, h]

theorem findKey_eq_value_iff {j : FrameId} :
    (findKey limit g (.symbol t) m).1 = .value j ↔ m.store.find? g t = some j := by
  rw [findKey_symbol]
  cases m.store.find? g t <;> simp

/-- A write of a value to a symbol: to the frame that owns the symbol as seen from a frame, or to the frame
itself. -/
inductive Write where
  | assign (env : FrameId) (x : String) (v : Value)
  | define (env : FrameId) (x : String) (v : Value)

namespace Write

/-- The value that is written. -/
def value : Write → Value
  | .assign _ _ v | .define _ _ v => v

/-- Makes the write. -/
def perform (limit : Nat) : Write → Run Unit
  | .assign env x v => do
    let j ← findKey limit env (.symbol x)
    bindKey limit j (.symbol x) v
  | .define env x v => bindKey limit env (.symbol x) v

/-- The write changes what the frame `g` sees as the value of the symbol `t`. -/
def Seen (s : Store) (g : FrameId) (t : String) : Write → Prop
  | .assign env x _ => t = x ∧ ∃ j, s.find? env x = some j ∧ s.find? g x = some j
  | .define env x _ => t = x ∧ Visible s x g env

theorem perform_assign (limit : Nat) (env : FrameId) (x : String) (v : Value) (m : Machine) :
    (Write.assign env x v).perform limit m = Scope.assign env x v m := by
  have hfindKey := findKey_symbol limit env x m
  rw [assign_apply, perform]
  cases hfind : m.store.find? env x with
  | none =>
    rw [hfind] at hfindKey
    rw [Run.bind_of_fault _ hfindKey]
  | some j =>
    rw [hfind] at hfindKey
    rw [Run.bind_of_value _ hfindKey]
    rfl

/-- What a write does: it binds a symbol in one frame, and it is seen from where this frame is visible; or
the symbol is unbound, and then it does nothing. -/
theorem perform_cases (limit : Nat) (w : Write) (hm : m.store.WellFormed) :
    (∃ j x, w.perform limit m = (.value (), { m with store := m.store.bind j x w.value }) ∧
      ∀ g t, w.Seen m.store g t ↔ t = x ∧ Visible m.store x g j) ∨
    ∃ x, w.perform limit m = (.fault (.unbound x), m) ∧ ∀ g t, ¬ w.Seen m.store g t := by
  cases w with
  | define env x v => exact Or.inl ⟨env, x, rfl, fun _ _ => Iff.rfl⟩
  | assign env x v =>
    rw [perform_assign, assign_apply]
    cases hfind : m.store.find? env x with
    | none =>
      refine Or.inr ⟨x, rfl, ?_⟩
      rintro g t ⟨-, j, hj, -⟩
      rw [hfind] at hj
      cases hj
    | some j =>
      obtain ⟨w, hw⟩ := Store.exists_get?_of_find? hfind
      refine Or.inl ⟨j, x, rfl, fun g t => and_congr_right fun _ => ?_⟩
      rw [hm.visible_iff_of_get? hw]
      simp [hfind]

/-- A frame that sees the write sees the new value. -/
theorem lookup?_of_seen (limit : Nat) {w : Write} (hm : m.store.WellFormed) (h : w.Seen m.store g t) :
    (w.perform limit m).2.store.lookup? g t = some w.value := by
  rcases w.perform_cases limit hm with ⟨j, x, hperform, hseen⟩ | ⟨x, -, hnone⟩
  · obtain ⟨rfl, hvisible⟩ := (hseen g t).1 h
    rw [hperform]
    exact hm.lookup?_bind_of_visible hvisible w.value
  · exact absurd h (hnone g t)

/-- A frame that does not see the write sees what it saw. -/
theorem lookup?_of_not_seen (limit : Nat) {w : Write} (hm : m.store.WellFormed)
    (h : ¬ w.Seen m.store g t) : (w.perform limit m).2.store.lookup? g t = m.store.lookup? g t := by
  rcases w.perform_cases limit hm with ⟨j, x, hperform, hseen⟩ | ⟨x, hperform, -⟩
  · rw [hperform]
    exact hm.lookup?_bind_of_hidden w.value fun hvisible => h ((hseen g t).2 hvisible)
  · rw [hperform]

theorem wellFormed_perform (limit : Nat) {w : Write} (hm : m.store.WellFormed)
    (hw : w.value.Within m.store.frames.size) :
    (w.perform limit m).2.store.WellFormed ∧
      (w.perform limit m).2.store.frames.size = m.store.frames.size := by
  rcases w.perform_cases limit hm with ⟨j, x, hperform, -⟩ | ⟨x, hperform, -⟩ <;> rw [hperform]
  · exact ⟨hm.bind hw, Store.size_frames_bind ..⟩
  · exact ⟨hm, rfl⟩

/-- Makes writes in turn; one that fails is passed over. -/
def performAll (limit : Nat) (ws : List Write) (m : Machine) : Machine :=
  ws.foldl (fun m w => (w.perform limit m).2) m

/-- None of the writes, each at its turn, is seen. -/
def Unseen (limit : Nat) (g : FrameId) (t : String) : List Write → Machine → Prop
  | [], _ => True
  | w :: ws, m => ¬ w.Seen m.store g t ∧ Unseen limit g t ws (w.perform limit m).2

/-- After any writes a frame sees the value of the last one that it saw, or what it saw before. -/
theorem lookup?_performAll (limit : Nat) (g : FrameId) (t : String) (ws : List Write)
    (hm : m.store.WellFormed) (hws : ∀ w ∈ ws, w.value.Within m.store.frames.size) :
    (Unseen limit g t ws m ∧ (performAll limit ws m).store.lookup? g t = m.store.lookup? g t) ∨
    ∃ before w after, ws = before ++ w :: after ∧ w.Seen (performAll limit before m).store g t ∧
      Unseen limit g t after (performAll limit (before ++ [w]) m) ∧
      (performAll limit ws m).store.lookup? g t = some w.value := by
  induction ws generalizing m with
  | nil => exact Or.inl ⟨trivial, rfl⟩
  | cons w ws ih =>
    obtain ⟨hm', hsize⟩ := wellFormed_perform limit hm (hws w List.mem_cons_self)
    have hws' : ∀ u ∈ ws, u.value.Within (w.perform limit m).2.store.frames.size :=
      fun u hu => hsize ▸ hws u (List.mem_cons_of_mem _ hu)
    rcases ih hm' hws' with ⟨hunseen, hsame⟩ | ⟨before, u, after, rfl, hseen, hafter, hvalue⟩
    · -- Nothing after the first write is seen, so it depends on this one.
      by_cases h : w.Seen m.store g t
      · exact Or.inr ⟨[], w, ws, rfl, h, hunseen, hsame.trans (lookup?_of_seen limit hm h)⟩
      · exact Or.inl ⟨⟨h, hunseen⟩, hsame.trans (lookup?_of_not_seen limit hm h)⟩
    · exact Or.inr ⟨w :: before, u, after, rfl, hseen, hafter, hvalue⟩

end Write

/-- What writes change for whom, in a well-formed store. At all times the search for the owner of a symbol,
the test whether it is bound and its value agree, and the owner has a value. An assignment to an unbound
symbol fails and changes nothing; any other one is seen as the symbol's value from the frames for which the
symbol has the same owner, and it changes nothing else: no other value, no owner, and not what is bound. A
definition is seen from the frames on whose chains its frame comes before all others that bind the symbol,
and it changes no other value. After writes in turn, every frame sees for every symbol the last one that it
saw at its turn. The evaluation of symbols, of assignments and of definitions does the same. -/
theorem write_laws (hm : m.store.WellFormed) (limit : Nat) :
    (∀ n g t,
      (∃ j w, findKey limit g (.symbol t) n = (.value j, n) ∧
        containsKey limit g (.symbol t) n = (.value true, n) ∧
        getKey limit j (.symbol t) n = (.value w, n) ∧
        lookupKey limit g (.symbol t) n = (.value w, n)) ∨
      (findKey limit g (.symbol t) n = (.fault (.unbound t), n) ∧
        containsKey limit g (.symbol t) n = (.value false, n) ∧
        lookupKey limit g (.symbol t) n = (.fault (.unbound t), n))) ∧
    (∀ env s v,
      (findKey limit env (.symbol s) m = (.fault (.unbound s), m) ∧
        (Write.assign env s v).perform limit m = (.fault (.unbound s), m)) ∨
      ∃ j m', findKey limit env (.symbol s) m = (.value j, m) ∧
        (Write.assign env s v).perform limit m = (.value (), m') ∧
        ∀ g t,
          (t = s ∧ (findKey limit g (.symbol s) m).1 = .value j →
            (lookupKey limit g (.symbol t) m').1 = .value v) ∧
          (¬ (t = s ∧ (findKey limit g (.symbol s) m).1 = .value j) →
            (lookupKey limit g (.symbol t) m').1 = (lookupKey limit g (.symbol t) m).1) ∧
          (findKey limit g (.symbol t) m').1 = (findKey limit g (.symbol t) m).1 ∧
          (containsKey limit g (.symbol t) m').1 = (containsKey limit g (.symbol t) m).1) ∧
    (∀ env s v, ∃ m', (Write.define env s v).perform limit m = (.value (), m') ∧
      ∀ g t,
        (t = s ∧ Visible m.store s g env → (lookupKey limit g (.symbol t) m').1 = .value v) ∧
        (¬ (t = s ∧ Visible m.store s g env) →
          (lookupKey limit g (.symbol t) m').1 = (lookupKey limit g (.symbol t) m).1)) ∧
    (∀ ws g t, (∀ w ∈ ws, w.value.Within m.store.frames.size) →
      (Write.Unseen limit g t ws m ∧
        (lookupKey limit g (.symbol t) (Write.performAll limit ws m)).1 =
          (lookupKey limit g (.symbol t) m).1) ∨
      ∃ before w after, ws = before ++ w :: after ∧
        w.Seen (Write.performAll limit before m).store g t ∧
        Write.Unseen limit g t after (Write.performAll limit (before ++ [w]) m) ∧
        (lookupKey limit g (.symbol t) (Write.performAll limit ws m)).1 = .value w.value) ∧
    (∀ g t, lookup g t m = lookupKey limit g (.symbol t) m) ∧
    (∀ env s v, assign env s v m = (Write.assign env s v).perform limit m) ∧
    ∀ env s v, define env s v m = (Write.define env s v).perform limit m := by
  refine ⟨?_, ?_, ?_, ?_, ?_, ?_, ?_⟩
  · intro n g t
    cases hfind : n.store.find? g t with
    | none =>
      refine Or.inr ⟨?_, ?_, ?_⟩
      · rw [findKey_symbol, hfind]
      · rw [containsKey_symbol, hfind, Option.isSome_none]
      · rw [lookupKey_symbol, lookup_apply, Store.lookup?, hfind, Option.bind_none]
    | some j =>
      obtain ⟨w, hw⟩ := Store.exists_get?_of_find? hfind
      refine Or.inl ⟨j, w, ?_, ?_, getKey_symbol limit hw, ?_⟩
      · rw [findKey_symbol, hfind]
      · rw [containsKey_symbol, hfind, Option.isSome_some]
      · rw [lookupKey_symbol, lookup_apply, Store.lookup?_of_find? hfind, hw]
  · intro env s v
    rw [Write.perform_assign]
    cases hfind : m.store.find? env s with
    | none => exact Or.inl ⟨by rw [findKey_symbol, hfind], by rw [assign_apply, hfind]⟩
    | some j =>
      have hassign : assign env s v m = (.value (), { m with store := m.store.bind j s v }) := by
        rw [assign_apply, hfind]
      refine Or.inr ⟨j, _, by rw [findKey_symbol, hfind], hassign, fun g t => ?_⟩
      -- The owner has a value for the symbol, so it is visible from where it is the owner.
      obtain ⟨w, hw⟩ := Store.exists_get?_of_find? hfind
      have howner := hm.find?_bind_owner hfind v g t
      rw [findKey_eq_value_iff, ← hm.visible_iff_of_get? hw]
      refine ⟨?_, ?_, ?_, ?_⟩
      · rintro ⟨rfl, hvisible⟩
        exact lookupKey_of_lookup? limit (hm.lookup?_bind_of_visible hvisible v)
      · intro hhidden
        exact lookupKey_congr limit (hm.lookup?_bind_of_hidden v hhidden)
      · rw [findKey_symbol, findKey_symbol, howner]
      · rw [containsKey_symbol, containsKey_symbol, howner]
  · intro env s v
    refine ⟨_, rfl, fun g t => ⟨?_, ?_⟩⟩
    · rintro ⟨rfl, hvisible⟩
      exact lookupKey_of_lookup? limit (hm.lookup?_bind_of_visible hvisible v)
    · intro hhidden
      exact lookupKey_congr limit (hm.lookup?_bind_of_hidden v hhidden)
  · intro ws g t hws
    rcases Write.lookup?_performAll limit g t ws hm hws with
      ⟨hunseen, hsame⟩ | ⟨before, w, after, hsplit, hseen, hafter, hvalue⟩
    · exact Or.inl ⟨hunseen, lookupKey_congr limit hsame⟩
    · exact Or.inr ⟨before, w, after, hsplit, hseen, hafter, lookupKey_of_lookup? limit hvalue⟩
  · exact fun g t => (lookupKey_symbol limit g t m).symm
  · exact fun env s v => (Write.perform_assign limit env s v m).symm
  · exact fun env s v => rfl

/-- A global frame that binds `x`, and two frames inside it. -/
private def forkedMachine : Machine :=
  let global := (Store.empty.addFrame [("x", .int 1)] none).2
  ⟨((global.addFrame [] (some 0)).2.addFrame [("y", .int 2)] (some 0)).2, Log.new .warning⟩

private theorem forkedMachine_wellFormed : forkedMachine.store.WellFormed := by
  refine ((Store.WellFormed.empty.addFrame ?_ ?_).addFrame ?_ ?_).addFrame ?_ ?_ <;>
    simp [Value.Within, Store.addFrame, Store.empty]

private theorem forkedMachine_owner :
    forkedMachine.store.find? 1 "x" = some 0 ∧ forkedMachine.store.find? 2 "x" = some 0 := by
  have hglobal : forkedMachine.store.find? 0 "x" = some 0 := Store.find?_of_binds rfl rfl
  exact ⟨(Store.find?_outward rfl rfl rfl (by decide)).trans hglobal,
    (Store.find?_outward rfl rfl rfl (by decide)).trans hglobal⟩

/-- The two inner frames share `x` until one of them gets an `x` of its own: an assignment made from the one
is seen from the other, and a definition in the one is not. -/
theorem write_laws_forked :
    forkedMachine.store.WellFormed ∧
    (∃ m', (Write.assign 2 "x" (.int 5)).perform 0 forkedMachine = (.value (), m') ∧
      (lookupKey 0 1 (.symbol "x") m').1 = .value (.int 5)) ∧
    ∃ m', (Write.define 2 "x" (.int 5)).perform 0 forkedMachine = (.value (), m') ∧
      (lookupKey 0 2 (.symbol "x") m').1 = .value (.int 5) ∧
      (lookupKey 0 1 (.symbol "x") m').1 = .value (.int 1) := by
  obtain ⟨hfirst, hsecond⟩ := forkedMachine_owner
  obtain ⟨-, hassign, hdefine, -⟩ := write_laws forkedMachine_wellFormed 0
  refine ⟨forkedMachine_wellFormed, ?_, ?_⟩
  · have hfind : findKey 0 2 (.symbol "x") forkedMachine = (.value 0, forkedMachine) := by
      rw [findKey_symbol, hsecond]
    rcases hassign 2 "x" (.int 5) with ⟨hunbound, -⟩ | ⟨j, m', hj, hset, hlaws⟩
    · cases hfind.symm.trans hunbound
    · cases hfind.symm.trans hj
      exact ⟨m', hset, (hlaws 1 "x").1 ⟨rfl, findKey_eq_value_iff.2 hfirst⟩⟩
  · obtain ⟨m', hset, hlaws⟩ := hdefine 2 "x" (.int 5)
    have hhidden : ¬ Visible forkedMachine.store "x" 1 2 := by
      intro hvisible
      cases hvisible with
      | outward hf _ ho hglobal =>
        cases hf
        cases ho
        cases hglobal with
        | outward hf _ ho _ =>
          cases hf
          cases ho
    refine ⟨m', hset, (hlaws 2 "x").1 ⟨rfl, .here rfl⟩, ?_⟩
    rw [(hlaws 1 "x").2 fun h => hhidden h.2]
    exact lookupKey_of_lookup? 0 (Store.lookup?_of_find? hfirst)

end Scope

end Lisplet
