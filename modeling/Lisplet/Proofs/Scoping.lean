import Lisplet.Proofs.Operands

/-!
# What evaluation does to scopes

A form can bind new names in one frame only, the one it is evaluated in, and only names that its own
`define` forms have for targets: a closure that is called on the way defines in a frame of its own, and
an assignment changes a value and no name. All other frames keep their names and the order of them,
and no frame ever gets another outer frame.

Main definitions: `Value.targets`, `Store.Extends`, `Run.Extends`. Main statements: `apply_extends`,
`eval_extends`.
-/

namespace Lisplet

/-! ## The names that a form may define -/

/-- The symbol that a definition with these operands binds. -/
def Keyword.target? : List Value → Option String
  | [.symbol x, _] => some x
  | _ => none

mutual

/-- The targets of the `define` forms that occur in a form, outside quoted data and the bodies of
`lambda` forms. -/
def Value.targets : Value → List String
  | .list _ (head :: ops) =>
    match head.keyword? with
    | some .quote | some .lambda => []
    | some .define => (Keyword.target? ops).toList ++ targetsAll ops
    | _ => head.targets ++ targetsAll ops
  | _ => []

/-- The targets of the `define` forms that occur in several forms. -/
def targetsAll : List Value → List String
  | [] => []
  | v :: vs => v.targets ++ targetsAll vs

end

theorem mem_targetsAll {x : String} {vs : List Value} :
    x ∈ targetsAll vs ↔ ∃ v ∈ vs, x ∈ v.targets := by
  induction vs with
  | nil => simp [targetsAll]
  | cons v vs ih => simp [targetsAll, ih]

/-- What the items of a form define, the form defines, unless it is quoted data or a procedure. -/
theorem Value.mem_targets_of_mem {x : String} {id : Option ObjectId} {head v : Value}
    {ops : List Value} (hquote : head.keyword? ≠ some .quote)
    (hlambda : head.keyword? ≠ some .lambda) (hv : v ∈ head :: ops) (hx : x ∈ v.targets) :
    x ∈ (Value.list id (head :: ops)).targets := by
  have hall : x ∈ head.targets ++ targetsAll ops := by
    rcases List.mem_cons.1 hv with rfl | hv
    · exact List.mem_append_left _ hx
    · exact List.mem_append_right _ (mem_targetsAll.2 ⟨v, hv, hx⟩)
  simp only [Value.targets]
  split
  · next hk => exact absurd hk hquote
  · next hk => exact absurd hk hlambda
  · next hk =>
    -- The head of a definition is a symbol and defines nothing.
    obtain rfl := Value.keyword?_eq_some_iff.1 hk
    exact List.mem_append_right _ hall
  · exact hall

/-- A definition defines its target. -/
theorem Value.target_mem_targets {x : String} {id : Option ObjectId} {form : Value} :
    x ∈ (Value.list id [.symbol Keyword.define.name, .symbol x, form]).targets := by
  simp [Value.targets, Value.keyword?, Keyword.ofName?_name, Keyword.target?]

/-! ## Stores that grow -/

/-- The names after binding one: it is new and comes last, or nothing changes. -/
theorem Bindings.names_set (b : Bindings) (x : String) (v : Value) :
    (b.set x v).names = b.names ++ if b.binds x then [] else [x] := by
  induction b with
  | nil => simp [set, names, binds]
  | cons p b ih =>
    by_cases hp : p.1 = x
    · simp [set, names, binds, get?, hp]
    · have hbinds : binds (p :: b) x = binds b x := by simp [binds, get?, hp]
      simp only [set, if_neg hp, names, List.map_cons, List.cons_append, hbinds] at ih ⊢
      rw [ih]

namespace Store

variable {s s₁ s₂ : Store} {i j g : FrameId} {f : Frame} {x : String} {v : Value}
  {P Q : FrameId → String → Prop}

/-- Every frame of the first store is in the second one, inside the same outer frame, and binds its
names in the same order and behind them only new names that are permitted; and a frame that is in the
second store only has an outer frame. -/
structure Extends (permitted : FrameId → String → Prop) (s s' : Store) : Prop where
  kept : ∀ {g f}, s.frame? g = some f → ∃ f', s'.frame? g = some f' ∧ f'.outer = f.outer ∧
    ∃ new, f'.bindings.names = f.bindings.names ++ new ∧ ∀ x ∈ new, permitted g x
  inner : ∀ {g f'}, s'.frame? g = some f' → s.frame? g = none → f'.outer ≠ none

/-- The frames after binding a name in one of them. -/
theorem frame?_bind (s : Store) (i : FrameId) (x : String) (v : Value) (g : FrameId) :
    (s.bind i x v).frame? g = (s.frame? g).map fun f =>
      if i = g then { f with bindings := f.bindings.set x v } else f := by
  simp only [frame?, bind, modify, Array.getElem?_modify]
  split
  · rfl
  · simp

/-- The frames after adding one. -/
theorem frame?_addFrame (s : Store) (b : Bindings) (outer : Option FrameId) (g : FrameId) :
    (s.addFrame b outer).2.frame? g =
      if g = s.frames.size then some ⟨b, outer⟩ else s.frame? g := by
  simp only [frame?, addFrame, Array.getElem?_push]

/-- The values in a frame after binding a name. -/
theorem get?_bind (s : Store) (i : FrameId) (y : String) (v : Value) (g : FrameId) (z : String) :
    (s.bind i y v).get? g z =
      if i = g ∧ y = z then (s.frame? g).map fun _ => v else s.get? g z := by
  simp only [get?, bindings, frame?_bind]
  cases s.frame? g with
  | none => simp
  | some f =>
    by_cases hg : i = g
    · by_cases hz : y = z
      · simp [hg, hz]
      · simp [hg, hz, Bindings.get?_set_of_ne f.bindings v hz]
    · simp [hg]

/-- The values in a frame after adding one. -/
theorem get?_addFrame (s : Store) (b : Bindings) (outer : Option FrameId) (g : FrameId) (z : String) :
    (s.addFrame b outer).2.get? g z = if g = s.frames.size then b.get? z else s.get? g z := by
  simp only [get?, bindings, frame?_addFrame]
  by_cases hg : g = s.frames.size
  · rw [if_pos hg, if_pos hg]
  · rw [if_neg hg, if_neg hg]

/-- A frame of the store stands before the next one. -/
theorem lt_size_of_frame? (h : s.frame? g = some f) : g < s.frames.size :=
  (Array.getElem?_eq_some_iff.1 h).1

/-- The owner that the search finds binds the name. -/
theorem binds_of_find? (h : s.find? i x = some j) (hf : s.frame? j = some f) :
    f.bindings.binds x = true := by
  have hb := List.find?_some h
  simpa only [bindings, hf] using hb

namespace Extends

/-- A store that has the same frames. -/
theorem of_frames (h : s₁.frames = s.frames) : s.Extends P s₁ where
  kept := by
    intro g f hf
    have hf' : s₁.frame? g = some f := by rw [frame?, h]; exact hf
    exact ⟨f, hf', rfl, [], by simp, by simp⟩
  inner := by
    intro g f hf hnone
    rw [frame?, h] at hf
    exact absurd hf (by rw [frame?] at hnone; simp [hnone])

protected theorem refl (P : FrameId → String → Prop) (s : Store) : s.Extends P s :=
  of_frames rfl

/-- First one change and then another: what the second one may bind must be permitted in the frames
that were there before both. -/
theorem trans (h₁ : s.Extends P s₁) (h₂ : s₁.Extends Q s₂)
    (hQ : ∀ g f x, s.frame? g = some f → Q g x → P g x) : s.Extends P s₂ where
  kept := by
    intro g f hf
    obtain ⟨f₁, hf₁, houter₁, new₁, hnames₁, hnew₁⟩ := h₁.kept hf
    obtain ⟨f₂, hf₂, houter₂, new₂, hnames₂, hnew₂⟩ := h₂.kept hf₁
    refine ⟨f₂, hf₂, houter₂.trans houter₁, new₁ ++ new₂, ?_, ?_⟩
    · rw [hnames₂, hnames₁, List.append_assoc]
    · intro x hx
      rcases List.mem_append.1 hx with hx | hx
      · exact hnew₁ x hx
      · exact hQ g f x hf (hnew₂ x hx)
  inner := by
    intro g f hf hnone
    cases hg : s₁.frame? g with
    | none => exact h₂.inner hf hg
    | some f₁ =>
      obtain ⟨f₂, hf₂, houter, -⟩ := h₂.kept hg
      have heq : f₂ = f := Option.some.inj (hf₂.symm.trans hf)
      rw [← heq, houter]
      exact h₁.inner hg hnone

theorem mono (h : s.Extends Q s₁) (hQ : ∀ g x, Q g x → P g x) : s.Extends P s₁ :=
  (Extends.refl P s).trans h fun g _ x _ => hQ g x

/-- Binding a name in a frame: it is bound there already, or it may be. -/
theorem bind (h : ∀ f, s.frame? i = some f → f.bindings.binds x = true ∨ P i x) (v : Value) :
    s.Extends P (s.bind i x v) where
  kept := by
    intro g f hf
    refine ⟨_, by rw [frame?_bind, hf, Option.map_some], ?_, ?_⟩
    · split <;> rfl
    · split
      · next hg =>
        subst hg
        refine ⟨_, Bindings.names_set .., ?_⟩
        intro y hy
        split at hy
        · cases hy
        · next hbinds =>
          rw [List.mem_singleton.1 hy]
          exact (h f hf).resolve_left hbinds
      · exact ⟨[], by simp, by simp⟩
  inner := by
    intro g f hf hnone
    obtain ⟨f₀, hf₀, -⟩ := frame?_bind_cases hf
    rw [hnone] at hf₀
    cases hf₀

/-- Adding a frame inside another one. -/
theorem addFrame (s : Store) (b : Bindings) (o : FrameId) :
    s.Extends P (s.addFrame b (some o)).2 where
  kept := by
    intro g f hf
    have hf' : (s.addFrame b (some o)).2.frame? g = some f := by
      rw [frame?_addFrame, if_neg (Nat.ne_of_lt (lt_size_of_frame? hf)), hf]
    exact ⟨f, hf', rfl, [], by simp, by simp⟩
  inner := by
    intro g f hf hnone
    rcases frame?_addFrame_cases hf with hold | ⟨-, rfl⟩
    · rw [hnone] at hold
      cases hold
    · simp

end Extends

end Store

/-! ## Runs that let stores grow -/

/-- On every machine the run extends the store by permitted names. -/
def Run.Extends {α : Type} (permitted : FrameId → String → Prop) (x : Run α) : Prop :=
  ∀ m : Machine, m.store.Extends permitted (x m).2.store

namespace Run.Extends

variable {α β : Type} {P Q : FrameId → String → Prop} {x : Run α} {f : α → Run β}

theorem of_frames (h : ∀ m, (x m).2.store.frames = m.store.frames) : x.Extends P :=
  fun m => .of_frames (h m)

theorem lift (o : Outcome α) : (Run.lift o).Extends P :=
  of_frames fun _ => rfl

protected theorem pure (a : α) : (pure a : Run α).Extends P :=
  of_frames fun _ => rfl

theorem report (limit : Nat) (e : Event) : (Run.report limit e).Extends P := by
  apply Run.Extends.of_frames
  intro m
  unfold Run.report
  split
  · split <;> rfl
  · rfl

protected theorem bind (hx : x.Extends P) (hf : ∀ a, (f a).Extends P) : (x >>= f).Extends P := by
  intro m
  rcases h : x m with ⟨o, m₁⟩
  have h₁ : m.store.Extends P m₁.store := by simpa only [h] using hx m
  cases o with
  | value a =>
    rw [Run.bind_of_value f h]
    exact h₁.trans (hf a m₁) fun _ _ _ _ hP => hP
  | fault e =>
    rw [Run.bind_of_fault f h]
    exact h₁
  | exhausted =>
    rw [Run.bind_of_exhausted f h]
    exact h₁

theorem faultShowing (limit : Nat) (v : Value) (make : String → Fault) :
    (Run.faultShowing limit v make : Run α).Extends P :=
  (lift _).bind fun _ => lift _

theorem mono (h : x.Extends Q) (hQ : ∀ g y, Q g y → P g y) : x.Extends P :=
  fun m => (h m).mono hQ

theorem guard (activity : Activity) (h : x.Extends P) : (x.guard activity).Extends P :=
  h

end Run.Extends

/-! ## Evaluation -/

/-- Evaluating a form in a frame binds new names in that frame only, and only targets of the form. -/
def Evaluator.Extends (ev : Evaluator) : Prop :=
  ∀ form i, (ev form i).Extends fun g x => g = i ∧ x ∈ form.targets

variable {limit : Nat} {ev : Evaluator} {i : FrameId} {P : FrameId → String → Prop}

theorem evalAll_extends {forms : List Value} (h : ∀ form ∈ forms, (ev form i).Extends P) :
    (evalAll ev i forms).Extends P := by
  induction forms with
  | nil => exact .pure _
  | cons form forms ih =>
    obtain ⟨hform, hforms⟩ := List.forall_mem_cons.1 h
    exact hform.bind fun v => (ih hforms).bind fun vs => .pure _

theorem evalLast_extends {last : Value} {forms : List Value}
    (h : ∀ form ∈ forms, (ev form i).Extends P) : (evalLast ev i last forms).Extends P := by
  induction forms generalizing last with
  | nil => exact .pure _
  | cons form forms ih =>
    obtain ⟨hform, hforms⟩ := List.forall_mem_cons.1 h
    exact hform.bind fun v => ih hforms

/-- An assignment binds no new name anywhere. -/
theorem Scope.assign_extends (x : String) (v : Value) : (Scope.assign i x v).Extends P := by
  intro m
  rw [Scope.assign_apply]
  split
  · next j hj => exact .bind (fun f hf => Or.inl (Store.binds_of_find? hj hf)) v
  · exact .refl _ _

/-- A definition binds its name in its frame. -/
theorem Scope.define_extends {x : String} (hx : P i x) (v : Value) : (Scope.define i x v).Extends P :=
  fun _ => .bind (fun _ _ => Or.inr hx) v

/-- The rule of a keyword binds at most what its form has for targets. -/
theorem Keyword.run_extends (hev : Evaluator.Extends ev) (k : Keyword) (ops : List Value)
    (id : Option ObjectId) : (k.run limit ev ops i).Extends fun g x =>
      g = i ∧ x ∈ (Value.list id (.symbol k.name :: ops)).targets := by
  -- Operands are evaluated in the frame of the form, and what they define the form defines.
  have hop : k ≠ .quote → k ≠ .lambda → ∀ form ∈ ops, (ev form i).Extends fun g x =>
      g = i ∧ x ∈ (Value.list id (.symbol k.name :: ops)).targets := by
    intro hquote hlambda form hform
    refine (hev form i).mono fun g x hx => ⟨hx.1, ?_⟩
    have hk : (Value.symbol k.name).keyword? = some k := k.ofName?_name
    apply Value.mem_targets_of_mem _ _ (List.mem_cons_of_mem _ hform) hx.2
    · simpa [hk] using hquote
    · simpa [hk] using hlambda
  cases k.shape ops with
  | misused htakes =>
    rw [Keyword.run_of_not_takes htakes]
    exact .lift _
  | quote => exact .pure _
  | @cond test yes no hno =>
    have hop := hop (by simp) (by simp)
    rw [Keyword.run, runCond_eq hno]
    refine (hop test (by simp)).bind fun v => ?_
    split
    · exact hop yes (by simp)
    · split
      · exact .pure _
      · exact hop _ (by simp)
  | @assign x form =>
    refine (hop (by simp) (by simp) form (by simp)).bind fun v => ?_
    exact (Scope.assign_extends x v).bind fun _ => .pure _
  | @define x form =>
    refine (hop (by simp) (by simp) form (by simp)).bind fun v => ?_
    exact (Scope.define_extends ⟨rfl, Value.target_mem_targets⟩ v).bind fun _ => .pure _
  | badTarget hk ht =>
    rw [run_of_badTarget hk ht]
    exact .faultShowing _ _ _
  | lambda =>
    rw [Keyword.run, Keyword.runLambda_symbols]
    exact (Run.Extends.report _ _).bind fun _ => .of_frames fun _ => rfl
  | badParameters hparams =>
    rw [Keyword.run, runLambda_of_bad hparams]
    exact .faultShowing _ _ _
  | begin => exact evalLast_extends (hop (by simp) (by simp))

/-- An application binds no new name in a frame that is there already: the body of a closure is
evaluated in a frame of its own. -/
theorem apply_extends (hev : Evaluator.Extends ev) (v : Value) (args : List Value) :
    (apply limit ev v args).Extends P := by
  cases v with
  | primitive p home => exact (Run.Extends.of_frames fun _ => rfl).bind fun id => .lift _
  | closure id formals body captured =>
    intro m
    rcases Scope.makeFor_cases limit formals args captured m with
      ⟨names, -, hmake⟩ | ⟨o, hmake, ho⟩
    · let b := Bindings.ofPairs (names.zip args)
      let m₁ : Machine := { m with store := (m.store.addFrame b (some captured)).2 }
      have hbody := (Run.Extends.report limit (.applied formals args.length)).bind
        (fun _ => hev body m.store.frames.size) m₁
      rw [apply, Run.bind_of_value _ hmake]
      refine (Store.Extends.addFrame m.store b captured).trans hbody ?_
      -- The new frame stands behind all frames that were there.
      rintro g f x hf ⟨rfl, -⟩
      exact absurd (Store.lt_size_of_frame? hf) (Nat.lt_irrefl _)
    · cases o with
      | value i => exact absurd rfl (ho i)
      | fault e =>
        rw [apply, Run.bind_of_fault _ hmake]
        exact .refl _ _
      | exhausted =>
        rw [apply, Run.bind_of_exhausted _ hmake]
        exact .refl _ _
  | _ => exact .faultShowing _ _ _

theorem evalStep_extends {deeper : Nat → Evaluator} (hdeep : ∀ k, Evaluator.Extends (deeper k)) :
    Evaluator.Extends (evalStep limit deeper) := by
  intro form i
  cases form with
  | symbol x =>
    apply Run.Extends.of_frames
    intro m
    rw [evalStep, Scope.lookup_apply]
  | list id items =>
    cases items with
    | nil => exact .faultShowing _ _ _
    | cons head ops =>
      simp only [evalStep]
      cases hk : head.keyword? with
      | some k =>
        obtain rfl := Value.keyword?_eq_some_iff.1 hk
        exact (Run.Extends.report _ _).bind fun _ => k.run_extends (hdeep 1) ops id
      | none =>
        have hitem : ∀ form ∈ head :: ops, (deeper 1 form i).Extends fun g x =>
            g = i ∧ x ∈ (Value.list id (head :: ops)).targets := by
          intro form hform
          refine (hdeep 1 form i).mono fun g x hx => ⟨hx.1, ?_⟩
          exact Value.mem_targets_of_mem (by simp [hk]) (by simp [hk]) hform hx.2
        obtain ⟨hhead, hops⟩ := List.forall_mem_cons.1 hitem
        refine hhead.bind fun procedure => ?_
        exact (evalAll_extends hops).bind fun args => apply_extends (hdeep 2) procedure args
  | _ => exact .pure _

/-- Evaluating a form in a frame binds new names in that frame only, and only targets of the form. -/
theorem eval_extends (limit : Nat) : Evaluator.Extends (eval limit) := by
  induction limit using Nat.strongRecOn with
  | ind limit ih =>
    cases limit with
    | zero =>
      intro form i
      rw [eval]
      exact .lift _
    | succ limit =>
      rw [eval]
      exact evalStep_extends fun k => ih (limit - k) (by omega)

/-! ## Names that are kept -/

/-- The bound symbols are the names. -/
theorem Bindings.binds_iff_mem_names {b : Bindings} {x : String} : b.binds x = true ↔ x ∈ b.names := by
  induction b with
  | nil => simp [binds, names]
  | cons p b ih =>
    by_cases hp : p.1 = x
    · simp [binds, get?, names, hp]
    · have hx : ¬ x = p.1 := fun h => hp h.symm
      simpa [binds, get?, names, hp, hx] using ih

namespace Store.Extends

variable {s s₁ : Store} {P : FrameId → String → Prop}

/-- A frame that may get no new names keeps the names it has. -/
theorem same_names (h : s.Extends P s₁) {g : FrameId} {f : Frame} (hf : s.frame? g = some f)
    (hP : ∀ x, ¬ P g x) :
    ∃ f', s₁.frame? g = some f' ∧ f'.outer = f.outer ∧ f'.bindings.names = f.bindings.names := by
  obtain ⟨f', hf', houter, new, hnames, hnew⟩ := h.kept hf
  have hnil : new = [] := List.eq_nil_iff_forall_not_mem.2 fun x hx => hP x (hnew x hx)
  exact ⟨f', hf', houter, by rw [hnames, hnil, List.append_nil]⟩

/-- What was bound stays bound. -/
theorem binds (h : s.Extends P s₁) {g : FrameId} {x : String}
    (hx : (s.bindings g).binds x = true) : (s₁.bindings g).binds x = true := by
  cases hf : s.frame? g with
  | none =>
    simp only [bindings, hf] at hx
    cases hx
  | some f =>
    obtain ⟨f', hf', -, new, hnames, -⟩ := h.kept hf
    simp only [bindings, hf, hf', Bindings.binds_iff_mem_names, hnames] at hx ⊢
    exact List.mem_append_left _ hx

end Store.Extends

/-- An assignment changes the names of no frame. -/
theorem Scope.names_assign (i : FrameId) (x : String) (v : Value) (m : Machine) (g : FrameId) :
    ((Scope.assign i x v m).2.store.bindings g).names = (m.store.bindings g).names := by
  have hassign : m.store.Extends (fun _ _ => False) (Scope.assign i x v m).2.store :=
    Scope.assign_extends x v m
  cases hf : m.store.frame? g with
  | some f =>
    obtain ⟨f', hf', -, hnames⟩ := hassign.same_names hf fun _ hP => hP
    simp only [Store.bindings, hf, hf', hnames]
  | none =>
    -- No frame is added, so there is none here after the assignment either.
    have hnone : (Scope.assign i x v m).2.store.frame? g = none := by
      rw [Scope.assign_apply]
      split
      · next j _ =>
        apply Option.eq_none_iff_forall_ne_some.2
        intro f' hf'
        obtain ⟨f, hsome, -⟩ := Store.frame?_bind_cases hf'
        rw [hf] at hsome
        cases hsome
      · exact hf
    simp only [Store.bindings, hf, hnone]

end Lisplet
