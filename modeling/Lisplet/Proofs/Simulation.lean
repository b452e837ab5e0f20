import Lisplet.Proofs.Pairing
import Lisplet.Proofs.Scoping

/-!
# Evaluation in two stores

Let two machines be matched along a pairing: paired frames bind paired names to paired values, and what
is added next to one store is paired with what is added next to the other. Then evaluating paired forms
in paired frames comes to the same on both machines, leaves them matched along the same pairing, and
changes no frame of the first machine that the pairing leaves out.

A pairing covers frames and objects that are yet to be made. Values are paired along the part of it
that is about what is in the store by then, so that they never refer to anything that is not there.

Main definitions: `Matched`, `Simulated`, `Evaluator.Simulates`. Main statement: `eval_simulates`.
-/

namespace Lisplet

variable {κ : Pairing} {m n m₁ n₁ : Machine}

/-! ## Matched machines -/

/-- The part of a pairing that is about what is in a store. -/
def Pairing.within (κ : Pairing) (s : Store) : Pairing :=
  κ.upto s.frames.size s.objects

/-- Two machines whose stores hold the same, up to a pairing. -/
structure Matched (κ : Pairing) (m n : Machine) : Prop where
  next_frame : ∀ k, κ.frame (m.store.frames.size + k) (n.store.frames.size + k)
  next_object : ∀ k, κ.object (m.store.objects + k) (n.store.objects + k)
  frames : ∀ {a b}, κ.frame a b →
    Option.Rel (Frame.Paired (κ.within m.store)) (m.store.frame? a) (n.store.frame? b)
  outer_lt : ∀ {a b f o}, κ.frame a b → m.store.frame? a = some f → f.outer = some o →
    κ.dangling ∨ o < a
  threshold_eq : m.log.threshold = n.log.threshold

/-- What a run may do to the first machine: the store grows, frames that the pairing leaves out stay as
they are, and the log goes on keeping what it keeps. -/
structure Steps (κ : Pairing) (m m' : Machine) : Prop where
  frames_le : m.store.frames.size ≤ m'.store.frames.size
  objects_le : m.store.objects ≤ m'.store.objects
  untouched : ∀ {a}, (∀ b, ¬ κ.frame a b) → m'.store.frame? a = m.store.frame? a
  threshold_eq : m'.log.threshold = m.log.threshold

namespace Steps

variable {m₂ : Machine}

protected theorem refl (κ : Pairing) (m : Machine) : Steps κ m m :=
  ⟨Nat.le_refl _, Nat.le_refl _, fun _ => rfl, rfl⟩

theorem trans (h₁ : Steps κ m m₁) (h₂ : Steps κ m₁ m₂) : Steps κ m m₂ where
  frames_le := Nat.le_trans h₁.frames_le h₂.frames_le
  objects_le := Nat.le_trans h₁.objects_le h₂.objects_le
  untouched ha := (h₂.untouched ha).trans (h₁.untouched ha)
  threshold_eq := h₂.threshold_eq.trans h₁.threshold_eq

/-- What was paired stays paired. -/
theorem le (h : Steps κ m m₁) : (κ.within m.store).Le (κ.within m₁.store) :=
  Pairing.upto_le h.frames_le h.objects_le

end Steps

/-! ## Simulated runs -/

/-- A fault that shows a value is made from its description. -/
theorem Run.faultShowing_eq_lift {α : Type} (limit : Nat) (v : Value) (make : String → Fault) :
    (Run.faultShowing limit v make : Run α) =
      Run.lift (v.describe limit >>= fun shown => .fault (make shown)) := by
  funext m
  unfold Run.faultShowing
  cases hshow : v.describe limit with
  | value shown => rw [Run.bind_of_value _ (Run.lift_apply ..)]; rfl
  | fault e => rw [Run.bind_of_fault _ (Run.lift_apply ..)]; rfl
  | exhausted => rw [Run.bind_of_exhausted _ (Run.lift_apply ..)]; rfl

section Runs

variable {α β γ δ : Type} {Q : Pairing → α → β → Prop} {R : Pairing → γ → δ → Prop}

/-- Two runs, from matched machines, have come to the same: they end in the same way, with related
values if they have any, and the machines are matched again. -/
structure Simulated (κ : Pairing) (Q : Pairing → α → β → Prop) (m : Machine)
    (r : Outcome α × Machine) (r' : Outcome β × Machine) : Prop where
  matched : Matched κ r.2 r'.2
  steps : Steps κ m r.2
  outcome : Outcome.Paired (κ.within r.2.store) (Q (κ.within r.2.store)) r.1 r'.1

namespace Simulated

theorem lift (h : Matched κ m n) {o : Outcome α} {o' : Outcome β}
    (ho : Outcome.Paired (κ.within m.store) (Q (κ.within m.store)) o o') :
    Simulated κ Q m (Run.lift o m) (Run.lift o' n) :=
  ⟨h, .refl κ m, ho⟩

protected theorem pure (h : Matched κ m n) {a : α} {b : β} (hab : Q (κ.within m.store) a b) :
    Simulated κ Q m ((pure a : Run α) m) ((pure b : Run β) n) :=
  lift h (.value hab)

protected theorem bind {x : Run α} {y : Run β} {f : α → Run γ} {g : β → Run δ}
    (hx : Simulated κ Q m (x m) (y n))
    (hf : ∀ a b m₁ n₁, Matched κ m₁ n₁ → Steps κ m m₁ → Q (κ.within m₁.store) a b →
      Simulated κ R m₁ (f a m₁) (g b n₁)) :
    Simulated κ R m ((x >>= f) m) ((y >>= g) n) := by
  rcases hxm : x m with ⟨o, m₁⟩
  rcases hyn : y n with ⟨o', n₁⟩
  rw [hxm, hyn] at hx
  obtain ⟨hmatched, hsteps, houtcome⟩ := hx
  cases houtcome with
  | value hab =>
    rw [Run.bind_of_value f hxm, Run.bind_of_value g hyn]
    obtain ⟨hmatched', hsteps', houtcome'⟩ := hf _ _ m₁ n₁ hmatched hsteps hab
    exact ⟨hmatched', hsteps.trans hsteps', houtcome'⟩
  | fault he =>
    rw [Run.bind_of_fault f hxm, Run.bind_of_fault g hyn]
    exact ⟨hmatched, hsteps, .fault he⟩
  | exhausted =>
    rw [Run.bind_of_exhausted f hxm, Run.bind_of_exhausted g hyn]
    exact ⟨hmatched, hsteps, .exhausted⟩

/-- Faults that show paired values come to the same. -/
theorem faultShowing (h : Matched κ m n) {limit : Nat} {v w : Value}
    (hv : v.Paired (κ.within m.store) w) {make make' : String → Fault}
    (hmake : ∀ s s', κ.Alike s s' → (make s).Paired (κ.within m.store) (make' s')) :
    Simulated κ Q m (Run.faultShowing limit v make m) (Run.faultShowing limit w make' n) := by
  rw [Run.faultShowing_eq_lift, Run.faultShowing_eq_lift]
  exact lift h ((hv.describe limit).bind fun s s' hs => .fault (hmake s s' hs))

/-- Reports of events whose messages come to the same. -/
theorem report (h : Matched κ m n) {limit : Nat} {e e' : Event}
    (hmessage : Outcome.Paired (κ.within m.store) κ.Alike (e.message limit) (e'.message limit))
    (hlevel : e.level = e'.level) :
    Simulated κ (fun _ _ _ => True) m (Run.report limit e m) (Run.report limit e' n) := by
  have hkeeps : m.log.keeps e.level = n.log.keeps e'.level := by
    rw [Log.keeps, Log.keeps, h.threshold_eq, hlevel]
  unfold Run.report
  rw [hkeeps]
  generalize e.message limit = o at hmessage ⊢
  generalize e'.message limit = o' at hmessage ⊢
  split
  · cases hmessage with
    | value hs =>
      exact ⟨⟨h.1, h.2, h.3, h.4, h.5⟩, ⟨Nat.le_refl _, Nat.le_refl _, fun _ => rfl, rfl⟩,
        .value trivial⟩
    | fault he => exact ⟨h, .refl κ m, .fault he⟩
    | exhausted => exact ⟨h, .refl κ m, .exhausted⟩
  · exact ⟨h, .refl κ m, .value trivial⟩

end Simulated

end Runs

/-! ## The frames of matched machines -/

theorem find?_rel {α β : Type} {R : α → β → Prop} {p : α → Bool} {q : β → Bool} {l : List α}
    {l' : List β} (h : List.Forall₂ R l l') (hpq : ∀ a b, R a b → p a = q b) :
    Option.Rel R (l.find? p) (l'.find? q) := by
  induction h with
  | nil => exact .none
  | @cons a b l l' hab _ ih =>
    rw [List.find?_cons, List.find?_cons, hpq a b hab]
    split
    · exact .some hab
    · exact ih

theorem bindings_paired {s t : Store} {i j : FrameId}
    (h : Option.Rel (Frame.Paired κ) (s.frame? i) (t.frame? j)) :
    (s.bindings i).Paired κ (t.bindings j) := by
  unfold Store.bindings
  generalize s.frame? i = f at h ⊢
  generalize t.frame? j = f' at h ⊢
  cases h with
  | none => exact .nil
  | some hf => exact hf.bindings

namespace Matched

variable {i j : FrameId} {x y : String} {v w : Value}

theorem bindings (h : Matched κ m n) (hij : κ.frame i j) :
    (m.store.bindings i).Paired (κ.within m.store) (n.store.bindings j) :=
  bindings_paired (h.frames hij)

/-- The chains outward from paired frames are paired. -/
theorem chain (h : Matched κ m n) (hij : κ.frame i j) :
    List.Forall₂ κ.frame (m.store.chain i) (n.store.chain j) := by
  induction i using Nat.strongRecOn generalizing j with
  | ind i ih =>
    have hframes := h.frames hij
    unfold Store.chain
    generalize m.store.frame? i = f at hframes ⊢
    generalize n.store.frame? j = f' at hframes ⊢
    cases hframes with
    | none => exact .nil
    | @some f f' hf =>
      refine .cons hij ?_
      have houter := hf.outer
      generalize f.outer = o at houter ⊢
      generalize f'.outer = o' at houter ⊢
      cases houter with
      | none => exact .nil
      | @some o o' ho =>
        -- Paired frames are in the same order, so the chains end at the same place.
        have hlt : o < i ↔ o' < j := κ.frame_lt_iff ho.1 hij
        by_cases hoi : o < i
        · simp only [if_pos hoi, if_pos (hlt.1 hoi)]
          exact ih o hoi ho.1
        · simp only [if_neg hoi, if_neg (hlt.not.1 hoi)]
          exact .nil

/-- The search for paired names from paired frames finds paired owners. -/
theorem find? (h : Matched κ m n) (hij : κ.frame i j) (hx : κ.name x y) :
    Option.Rel κ.frame (m.store.find? i x) (n.store.find? j y) :=
  find?_rel (h.chain hij) fun _ _ hab => (h.bindings hab).binds_eq hx

/-- Paired names have paired values in paired frames. -/
theorem lookup? (h : Matched κ m n) (hij : κ.frame i j) (hx : κ.name x y) :
    Option.Rel (Value.Paired (κ.within m.store)) (m.store.lookup? i x) (n.store.lookup? j y) := by
  have hfind := h.find? hij hx
  unfold Store.lookup?
  generalize m.store.find? i x = a at hfind ⊢
  generalize n.store.find? j y = b at hfind ⊢
  cases hfind with
  | none => exact .none
  | some hab => exact (h.bindings hab).get? hx

/-- Binding paired names to paired values in paired frames keeps machines matched. -/
theorem bind (h : Matched κ m n) (hij : κ.frame i j) (hx : κ.name x y)
    (hv : v.Paired (κ.within m.store) w) :
    Matched κ { m with store := m.store.bind i x v } { n with store := n.store.bind j y w } where
  next_frame k := by
    simp only [Store.size_frames_bind]
    exact h.next_frame k
  next_object := h.next_object
  frames := by
    intro a b hab
    have hwithin : κ.within (m.store.bind i x v) = κ.within m.store := by
      simp only [Pairing.within, Store.size_frames_bind]
      rfl
    have heq : i = a ↔ j = b := κ.frame_eq_iff hij hab
    have hframes := h.frames hab
    simp only [Store.frame?_bind, hwithin]
    generalize m.store.frame? a = f at hframes ⊢
    generalize n.store.frame? b = f' at hframes ⊢
    cases hframes with
    | none => exact .none
    | some hf =>
      by_cases hia : i = a
      · simp only [Option.map_some, if_pos hia, if_pos (heq.1 hia)]
        exact .some ⟨hf.bindings.set hx hv, hf.outer⟩
      · simp only [Option.map_some, if_neg hia, if_neg (heq.not.1 hia)]
        exact .some hf
  outer_lt := by
    intro a b f o hab hf ho
    obtain ⟨f₀, hf₀, houter, -⟩ := Store.frame?_bind_cases hf
    exact h.outer_lt hab hf₀ (houter ▸ ho)
  threshold_eq := h.threshold_eq

theorem bind_steps (hij : κ.frame i j) (m : Machine) (x : String) (v : Value) :
    Steps κ m { m with store := m.store.bind i x v } where
  frames_le := Nat.le_of_eq (Store.size_frames_bind ..).symm
  objects_le := Nat.le_refl _
  untouched := by
    intro a ha
    have hia : i ≠ a := fun heq => ha j (heq ▸ hij)
    simp [Store.frame?_bind, hia]
  threshold_eq := rfl

/-- A frame that does not exist in one store does not exist in the other. -/
theorem next_frame_iff (h : Matched κ m n) {a b : FrameId} (hab : κ.frame a b) :
    a = m.store.frames.size ↔ b = n.store.frames.size :=
  κ.frame_eq_iff hab (h.next_frame 0)

/-- Adding paired frames keeps machines matched. -/
theorem addFrame (h : Matched κ m n) {b b' : Bindings} {o o' : FrameId}
    (hb : b.Paired (κ.within m.store) b') (ho : (κ.within m.store).frame o o') :
    Matched κ { m with store := (m.store.addFrame b (some o)).2 }
      { n with store := (n.store.addFrame b' (some o')).2 } where
  next_frame k := by
    simp only [Store.size_frames_addFrame, Nat.add_assoc, Nat.add_comm 1 k]
    exact h.next_frame (k + 1)
  next_object := h.next_object
  frames := by
    intro a a' haa
    have hle : (κ.within m.store).Le (κ.within (m.store.addFrame b (some o)).2) :=
      Pairing.upto_le (by simp) (Nat.le_refl _)
    have heq := h.next_frame_iff haa
    simp only [Store.frame?_addFrame]
    by_cases ha : a = m.store.frames.size
    · rw [if_pos ha, if_pos (heq.1 ha)]
      exact .some ⟨hb.mono hle, .some (hle.frame ho)⟩
    · rw [if_neg ha, if_neg (heq.not.1 ha)]
      exact rel_imp (fun _ _ hf => hf.mono hle) (h.frames haa)
  outer_lt := by
    intro a a' f p haa hf hp
    rcases Store.frame?_addFrame_cases hf with hold | ⟨rfl, rfl⟩
    · exact h.outer_lt haa hold hp
    · cases hp
      exact ho.2
  threshold_eq := h.threshold_eq

theorem addFrame_steps (h : Matched κ m n) (b : Bindings) (outer : Option FrameId) :
    Steps κ m { m with store := (m.store.addFrame b outer).2 } where
  frames_le := by simp
  objects_le := Nat.le_refl _
  untouched := by
    intro a ha
    have hne : a ≠ m.store.frames.size := fun heq => ha _ (heq ▸ h.next_frame 0)
    rw [Store.frame?_addFrame, if_neg hne]
  threshold_eq := rfl

/-- Giving away paired identities keeps machines matched. -/
theorem addObject (h : Matched κ m n) :
    Matched κ { m with store := m.store.addObject.2 } { n with store := n.store.addObject.2 } where
  next_frame := h.next_frame
  next_object k := by
    have := h.next_object (k + 1)
    rwa [Nat.add_comm k 1, ← Nat.add_assoc, ← Nat.add_assoc] at this
  frames := by
    intro a b hab
    have hle : (κ.within m.store).Le (κ.within m.store.addObject.2) :=
      Pairing.upto_le (Nat.le_refl _) (Nat.le_succ _)
    exact rel_imp (fun _ _ hf => hf.mono hle) (h.frames hab)
  outer_lt := h.outer_lt
  threshold_eq := h.threshold_eq

theorem addObject_steps (m : Machine) : Steps κ m { m with store := m.store.addObject.2 } where
  frames_le := Nat.le_refl _
  objects_le := Nat.le_succ _
  untouched _ := rfl
  threshold_eq := rfl

end Matched

/-! ## Scopes -/

section Scopes

variable {i j : FrameId} {x y : String} {v w : Value} {limit : Nat}

theorem lookup_simulated (h : Matched κ m n) (hij : κ.frame i j) (hx : κ.name x y) :
    Simulated κ Value.Paired m (Scope.lookup i x m) (Scope.lookup j y n) := by
  have hlookup := h.lookup? hij hx
  rw [Scope.lookup_apply, Scope.lookup_apply]
  generalize m.store.lookup? i x = o at hlookup ⊢
  generalize n.store.lookup? j y = o' at hlookup ⊢
  cases hlookup with
  | none => exact ⟨h, .refl κ m, .fault hx⟩
  | some hv => exact ⟨h, .refl κ m, .value hv⟩

theorem define_simulated (h : Matched κ m n) (hij : κ.frame i j) (hx : κ.name x y)
    (hv : v.Paired (κ.within m.store) w) :
    Simulated κ (fun _ _ _ => True) m (Scope.define i x v m) (Scope.define j y w n) :=
  ⟨h.bind hij hx hv, Matched.bind_steps hij m x v, .value trivial⟩

theorem assign_simulated (h : Matched κ m n) (hij : κ.frame i j) (hx : κ.name x y)
    (hv : v.Paired (κ.within m.store) w) :
    Simulated κ (fun _ _ _ => True) m (Scope.assign i x v m) (Scope.assign j y w n) := by
  have hfind := h.find? hij hx
  rw [Scope.assign_apply, Scope.assign_apply]
  generalize m.store.find? i x = o at hfind ⊢
  generalize n.store.find? j y = o' at hfind ⊢
  cases hfind with
  | none => exact ⟨h, .refl κ m, .fault hx⟩
  | some hab => exact define_simulated h hab hx hv

/-- The frames of calls of paired closures with paired arguments are paired. -/
theorem makeFor_simulated (h : Matched κ m n) {formals formals' args args' : List Value}
    {captured captured' : FrameId} (hformals : AllPaired (κ.within m.store) formals formals')
    (hargs : AllPaired (κ.within m.store) args args')
    (hcaptured : (κ.within m.store).frame captured captured') :
    Simulated κ Pairing.frame m (Scope.makeFor limit formals args captured m)
      (Scope.makeFor limit formals' args' captured' n) := by
  have hlen : args.length = formals.length ↔ args'.length = formals'.length := by
    rw [hargs.length_eq, hformals.length_eq]
  by_cases hcount : args.length = formals.length
  · by_cases hlist : ∃ v ∈ formals, v.isList = true
    · rw [Scope.makeFor_of_list hcount hlist,
        Scope.makeFor_of_list (hlen.1 hcount) (hformals.exists_isList_iff.1 hlist)]
      exact .lift h (.fault (Eq.refl _))
    · rcases symbols_or_bad formals with ⟨names, rfl⟩ | ⟨names, bad, later, rfl, hbad⟩
      · obtain ⟨names', rfl, hnames⟩ := hformals.exists_symbols
        rw [length_symbols] at hcount hlen
        rw [length_symbols] at hlen
        rw [Scope.makeFor_symbols hcount, Scope.makeFor_symbols (hlen.1 hcount)]
        refine ⟨h.addFrame (.ofPairs (Pairing.zip hnames hargs)) hcaptured,
          h.addFrame_steps _ _, .value ⟨h.next_frame 0, Or.inr ?_⟩⟩
        exact Store.addFrame_fst_lt ..
      · obtain ⟨us, us', rfl, hus, hrest⟩ := hformals.split
        obtain ⟨names', rfl, -⟩ := hus.exists_symbols
        cases hrest with
        | @cons _ bad' _ later' hb hlater =>
          have hbad' : bad'.name? = none := hb.name?_eq_none hbad
          have hno : ∀ v ∈ symbols names ++ bad :: later, v.isList = false :=
            fun v hv => Bool.eq_false_iff.2 fun hl => hlist ⟨v, hv, hl⟩
          have hno' : ∀ v ∈ symbols names' ++ bad' :: later', v.isList = false :=
            fun v hv => Bool.eq_false_iff.2 fun hl => hlist (hformals.exists_isList_iff.2 ⟨v, hv, hl⟩)
          rw [Scope.makeFor_of_bad hcount hno hbad, Scope.makeFor_of_bad (hlen.1 hcount) hno' hbad']
          exact .faultShowing h hb fun s s' hs => hs
  · rw [Scope.makeFor_of_length_ne hcount, Scope.makeFor_of_length_ne (hlen.not.1 hcount),
      hargs.length_eq, hformals.length_eq]
    exact .lift h (.fault (Eq.refl _))

/-- Closures made from paired parts are paired. -/
theorem addClosure_simulated (h : Matched κ m n) {formals formals' : List Value}
    {body body' : Value} (hformals : AllPaired (κ.within m.store) formals formals')
    (hbody : body.Paired (κ.within m.store) body') (hij : (κ.within m.store).frame i j) :
    Simulated κ Value.Paired m (Run.update (fun s => s.addClosure formals body i) m)
      (Run.update (fun s => s.addClosure formals' body' j) n) := by
  have hsteps : Steps κ m { m with store := m.store.addObject.2 } := Matched.addObject_steps m
  refine ⟨h.addObject, hsteps, .value ?_⟩
  exact .closure ⟨h.next_object 0, Or.inr (Nat.lt_succ_self _)⟩ (hformals.mono hsteps.le)
    (hbody.mono hsteps.le) (hsteps.le.frame hij)

end Scopes

/-! ## Evaluation -/

/-- Evaluating paired forms in paired frames of matched machines comes to the same. -/
def Evaluator.Simulates (κ : Pairing) (ev ev' : Evaluator) : Prop :=
  ∀ ⦃m n : Machine⦄ ⦃form form' : Value⦄ ⦃i j : FrameId⦄, Matched κ m n →
    form.Paired (κ.within m.store) form' → (κ.within m.store).frame i j →
    Simulated κ Value.Paired m (ev form i m) (ev' form' j n)

section Evaluation

variable {ev ev' : Evaluator} {i j : FrameId} {limit : Nat}

theorem evalAll_simulated (hev : Evaluator.Simulates κ ev ev') {forms forms' : List Value}
    (h : Matched κ m n) (hforms : AllPaired (κ.within m.store) forms forms')
    (hij : (κ.within m.store).frame i j) :
    Simulated κ AllPaired m (evalAll ev i forms m) (evalAll ev' j forms' n) := by
  induction forms generalizing forms' m n with
  | nil =>
    cases hforms
    exact .pure h .nil
  | cons form forms ih =>
    cases hforms with
    | cons hform hforms =>
      refine (hev h hform hij).bind fun v w m₁ n₁ h₁ hsteps hv => ?_
      -- What was paired before the first form was evaluated is so after it.
      have hrest := ih h₁ (hforms.mono hsteps.le) (hsteps.le.frame hij)
      refine hrest.bind fun vs ws m₂ n₂ h₂ hsteps' hvs => ?_
      exact .pure h₂ (.cons (hv.mono hsteps'.le) hvs)

theorem evalLast_simulated (hev : Evaluator.Simulates κ ev ev') {last last' : Value}
    {forms forms' : List Value} (h : Matched κ m n) (hlast : last.Paired (κ.within m.store) last')
    (hforms : AllPaired (κ.within m.store) forms forms') (hij : (κ.within m.store).frame i j) :
    Simulated κ Value.Paired m (evalLast ev i last forms m) (evalLast ev' j last' forms' n) := by
  induction forms generalizing forms' last last' m n with
  | nil =>
    cases hforms
    exact .pure h hlast
  | cons form forms ih =>
    cases hforms with
    | cons hform hforms =>
      refine (hev h hform hij).bind fun v w m₁ n₁ h₁ hsteps hv => ?_
      exact ih h₁ hv (hforms.mono hsteps.le) (hsteps.le.frame hij)

/-- Applying paired values to paired arguments comes to the same. -/
theorem apply_simulated (hev : Evaluator.Simulates κ ev ev') {v w : Value} {args args' : List Value}
    (h : Matched κ m n) (hv : v.Paired (κ.within m.store) w)
    (hargs : AllPaired (κ.within m.store) args args') :
    Simulated κ Value.Paired m (apply limit ev v args m) (apply limit ev' w args' n) := by
  cases hv with
  | closure hid hformals hbody hframe =>
    refine (makeFor_simulated h hformals hargs hframe).bind fun i j m₁ n₁ h₁ hsteps hij => ?_
    have hformals₁ := hformals.mono hsteps.le
    have hbody₁ := hbody.mono hsteps.le
    have hmessage : Outcome.Paired (κ.within m₁.store) κ.Alike
        ((Event.applied _ args.length).message limit)
        ((Event.applied _ args'.length).message limit) :=
      (hformals₁.titleAll limit).bind fun s s' hs => .value fun hname => by
        rw [hs hname, hargs.length_eq]
    refine (Simulated.report h₁ hmessage rfl).bind fun _ _ m₂ n₂ h₂ hsteps' _ => ?_
    exact hev h₂ (hbody₁.mono hsteps'.le) (hsteps'.le.frame hij)
  | primitive =>
    have hid : Simulated κ Pairing.object m (Run.update Store.addObject m)
        (Run.update Store.addObject n) :=
      ⟨h.addObject, Matched.addObject_steps m, .value ⟨h.next_object 0, Or.inr (Nat.lt_succ_self _)⟩⟩
    refine hid.bind fun id id' m₁ n₁ h₁ hsteps hid => ?_
    exact .lift h₁ (Primitive.call_paired hid _ (hargs.mono hsteps.le))
  | noValue => exact .faultShowing h .noValue fun s s' hs => ⟨.noValue, hs⟩
  | bool => exact .faultShowing h .bool fun s s' hs => ⟨.bool, hs⟩
  | int => exact .faultShowing h .int fun s s' hs => ⟨.int, hs⟩
  | symbol hx => exact .faultShowing h (.symbol hx) fun s s' hs => ⟨.symbol hx, hs⟩
  | list hid hvs => exact .faultShowing h (.list hid hvs) fun s s' hs => ⟨.list hid hvs, hs⟩
  | text => exact .faultShowing h .text fun s s' hs => ⟨.text, hs⟩

/-- The rule of a keyword comes to the same on paired operands. -/
theorem run_simulated (hev : Evaluator.Simulates κ ev ev') (k : Keyword) {ops ops' : List Value}
    (h : Matched κ m n) (hops : AllPaired (κ.within m.store) ops ops')
    (hij : (κ.within m.store).frame i j) :
    Simulated κ Value.Paired m (k.run limit ev ops i m) (k.run limit ev' ops' j n) := by
  cases k.shape ops with
  | misused htakes =>
    rw [Keyword.run_of_not_takes htakes, Keyword.run_of_not_takes (hops.length_eq ▸ htakes),
      hops.length_eq]
    exact .lift h (.fault (Eq.refl _))
  | quote =>
    cases hops with
    | cons hv hnil =>
      cases hnil
      exact .pure h hv
  | @cond test yes no hno =>
    cases hops with
    | cons htest hops =>
    cases hops with
    | @cons _ yes' _ no' hyes hrest =>
      have hno' : no'.length ≤ 1 := hrest.length_eq ▸ hno
      rw [Keyword.run, Keyword.run, runCond_eq hno, runCond_eq hno']
      refine (hev h htest hij).bind fun v w m₁ n₁ h₁ hsteps hv => ?_
      have hij₁ := hsteps.le.frame hij
      rw [hv.isTrue_eq]
      split
      · exact hev h₁ (hyes.mono hsteps.le) hij₁
      · cases hrest with
        | nil => exact .pure h₁ .noValue
        | cons hother _ => exact hev h₁ (hother.mono hsteps.le) hij₁
  | assign =>
    cases hops with
    | cons htarget hops =>
    cases hops with
    | cons hform hnil =>
    cases hnil
    cases htarget with
    | symbol hx =>
      refine (hev h hform hij).bind fun v w m₁ n₁ h₁ hsteps hv => ?_
      refine (assign_simulated h₁ hij.1 hx hv).bind fun _ _ m₂ n₂ h₂ _ _ => ?_
      exact .pure h₂ .noValue
  | define =>
    cases hops with
    | cons htarget hops =>
    cases hops with
    | cons hform hnil =>
    cases hnil
    cases htarget with
    | symbol hx =>
      refine (hev h hform hij).bind fun v w m₁ n₁ h₁ hsteps hv => ?_
      refine (define_simulated h₁ hij.1 hx hv).bind fun _ _ m₂ n₂ h₂ _ _ => ?_
      exact .pure h₂ .noValue
  | badTarget hk ht =>
    cases hops with
    | cons htarget hops =>
    cases hops with
    | cons hform hnil =>
      cases hnil
      rw [run_of_badTarget hk ht, run_of_badTarget hk (htarget.name?_eq_none ht)]
      exact .faultShowing h htarget fun s s' hs => ⟨rfl, hs⟩
  | lambda =>
    cases hops with
    | cons hparams hops =>
    cases hops with
    | cons hform hforms =>
    cases hparams with
    | list _ hsymbols =>
      obtain ⟨names', rfl, -⟩ := hsymbols.exists_symbols
      rw [Keyword.run, Keyword.run, Keyword.runLambda_symbols, Keyword.runLambda_symbols]
      have hmessage : Outcome.Paired (κ.within m.store) κ.Alike
          ((Event.closureMade (symbols _).length).message limit)
          ((Event.closureMade (symbols names').length).message limit) :=
        .value fun _ => by rw [hsymbols.length_eq]
      refine (Simulated.report h hmessage rfl).bind fun _ _ m₁ n₁ h₁ hsteps _ => ?_
      exact addClosure_simulated h₁ (hsymbols.mono hsteps.le)
        ((AllPaired.cons hform hforms).bodyOf.mono hsteps.le) (hsteps.le.frame hij)
  | badParameters hparams =>
    cases hops with
    | @cons _ params' _ _ hp hops =>
    cases hops with
    | cons hform hforms =>
      have hbad : ∀ id names, params' ≠ Value.list id (symbols names) := by
        rintro id names rfl
        cases hp with
        | list _ hvs =>
          obtain ⟨names', rfl⟩ := hvs.symbols_iff.2 ⟨names, rfl⟩
          exact hparams _ names' rfl
      rw [Keyword.run, Keyword.run, runLambda_of_bad hparams, runLambda_of_bad hbad]
      exact .faultShowing h hp fun s s' hs => hs
  | begin => exact evalLast_simulated hev h .noValue hops hij

/-- One step of evaluation comes to the same, if deeper evaluation does. -/
theorem evalStep_simulates {deeper deeper' : Nat → Evaluator}
    (hdeep : ∀ k, Evaluator.Simulates κ (deeper k) (deeper' k)) :
    Evaluator.Simulates κ (evalStep limit deeper) (evalStep limit deeper') := by
  intro m n form form' i j h hform hij
  cases hform with
  | symbol hx => exact lookup_simulated h hij.1 hx
  | list hid hitems =>
    cases hitems with
    | nil => exact .faultShowing h (.list hid .nil) fun s s' hs => ⟨.list hid .nil, hs⟩
    | @cons head head' ops ops' hhead hops =>
      simp only [evalStep, hhead.keyword?_eq]
      cases head'.keyword? with
      | some k =>
        have hmessage : Outcome.Paired (κ.within m.store) κ.Alike
            ((Event.keyword k).message limit) ((Event.keyword k).message limit) := .value .rfl
        refine (Simulated.report h hmessage rfl).bind fun _ _ m₁ n₁ h₁ hsteps _ => ?_
        exact run_simulated (hdeep 1) k h₁ (hops.mono hsteps.le) (hsteps.le.frame hij)
      | none =>
        refine (hdeep 1 h hhead hij).bind fun v w m₁ n₁ h₁ hsteps hv => ?_
        have hops₁ := evalAll_simulated (hdeep 1) h₁ (hops.mono hsteps.le) (hsteps.le.frame hij)
        refine hops₁.bind fun vs ws m₂ n₂ h₂ hsteps' hvs => ?_
        exact apply_simulated (hdeep 2) h₂ (hv.mono hsteps'.le) hvs
  | noValue => exact .pure h .noValue
  | bool => exact .pure h .bool
  | int => exact .pure h .int
  | primitive => exact .pure h .primitive
  | closure hid hvs hv ha => exact .pure h (.closure hid hvs hv ha)
  | text => exact .pure h .text

/-- Evaluating paired forms in paired frames of matched machines comes to the same. -/
theorem eval_simulates (κ : Pairing) (limit : Nat) :
    Evaluator.Simulates κ (eval limit) (eval limit) := by
  induction limit using Nat.strongRecOn with
  | ind limit ih =>
    cases limit with
    | zero =>
      intro m n form form' i j h _ _
      rw [eval]
      exact .lift h .exhausted
    | succ limit =>
      rw [eval]
      exact evalStep_simulates fun k => ih (limit - k) (by omega)

/-- Turning the depth limit into a fault keeps runs the same. -/
theorem Simulated.guard {α β : Type} {Q : Pairing → α → β → Prop} {x : Run α} {y : Run β}
    (activity : Activity) (h : Simulated κ Q m (x m) (y n)) :
    Simulated κ Q m (x.guard activity m) (y.guard activity n) := by
  obtain ⟨hmatched, hsteps, houtcome⟩ := h
  refine ⟨hmatched, hsteps, ?_⟩
  show Outcome.Paired _ _ (Outcome.ofExcept ((x m).1.toExcept activity))
    (Outcome.ofExcept ((y n).1.toExcept activity))
  generalize (x m).1 = o at houtcome ⊢
  generalize (y n).1 = o' at houtcome ⊢
  cases houtcome with
  | value hab => exact .value hab
  | fault he => exact .fault he
  | exhausted => exact .fault (Eq.refl _)

theorem evaluate_simulates (κ : Pairing) (limit : Nat) :
    Evaluator.Simulates κ (evaluate limit) (evaluate limit) :=
  fun _ _ _ _ _ _ h hform hij => (eval_simulates κ limit h hform hij).guard .evaluating

end Evaluation

end Lisplet
