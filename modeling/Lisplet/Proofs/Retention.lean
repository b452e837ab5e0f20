import Lisplet.Proofs.Conditions

/-!
# What evaluation leaves as it is

Only a `set!` form changes a binding of a frame that it does not stand in, and only a `define` form one of
the frame that it stands in. So where no `set!` can be reached, the frames that are there keep their
bindings with their values and their order, and in the frame of the form only targets of its own `define`
forms can change. Closures are called on the way, and they may define what they want: they do it in frames
of their own.

That no `set!` can be reached is a condition on code, which has to be carried along: the run makes closures,
stores them and calls them later. Here it is a provenance without assignments.

Main definitions: `Value.assigns`, `Store.Retains`, `Provenance.Tame`. Main statements: `eval_retains`,
`evaluate_retains`.
-/

namespace Lisplet

/-! ## Forms without assignments -/

mutual

/-- Whether a list that begins with `set!` occurs in a form, outside quoted data. -/
def Value.assigns : Value → Bool
  | .list _ (head :: ops) =>
    match head.keyword? with
    | some .quote => false
    | some .assign => true
    | _ => head.assigns || assignsAny ops
  | _ => false

/-- Whether such a list occurs in one of several forms. -/
def assignsAny : List Value → Bool
  | [] => false
  | v :: vs => v.assigns || assignsAny vs

end

theorem assignsAny_eq_false_iff {vs : List Value} :
    assignsAny vs = false ↔ ∀ v ∈ vs, v.assigns = false := by
  induction vs with
  | nil => simp [assignsAny]
  | cons v vs ih => simp [assignsAny, ih]

/-- What is evaluated for a form without assignments is without assignments. -/
theorem hereditary_assigns : Hereditary fun v => v.assigns = false where
  item {id head ops} h hk := by
    simp only [Value.assigns, hk, Bool.or_eq_false_iff, assignsAny_eq_false_iff] at h
    exact List.forall_mem_cons.2 h
  operand {id k ops} h hquote := by
    have hk : (Value.symbol k.name).keyword? = some k := k.ofName?_name
    cases k with
    | quote => exact absurd rfl hquote
    | assign => simp [Value.assigns, hk] at h
    | _ =>
      simp only [Value.assigns, hk, Bool.or_eq_false_iff, assignsAny_eq_false_iff] at h
      exact h.2
  begin {forms} h := by
    have hk : (Value.symbol Keyword.begin.name).keyword? = some .begin := rfl
    simpa [Value.assigns, hk, assignsAny_eq_false_iff] using h

/-! ## Stores that keep their bindings -/

/-- Binding a name changes nothing that is bound under the names that are kept, if it is none of them. -/
theorem Bindings.filter_set {kept : String → Bool} {x : String} (hx : kept x = false) (b : Bindings)
    (v : Value) : (b.set x v).filter (fun p => kept p.1) = b.filter fun p => kept p.1 := by
  induction b with
  | nil => simp [set, hx]
  | cons p b ih =>
    by_cases hp : p.1 = x
    · have hkept : kept p.1 = false := hp ▸ hx
      simp [set, hp, hx]
    · simp only [set, if_neg hp, List.filter_cons, ih]

namespace Store

variable {s s₁ s₂ : Store} {i g : FrameId} {f : Frame} {x : String} {P Q : FrameId → String → Prop}

/-- Every frame of the first store is in the second one, inside the same outer frame, and apart from the
names that may change it binds the same names to the same values in the same order. -/
def Retains (changing : FrameId → String → Prop) (s s' : Store) : Prop :=
  ∀ g f, s.frame? g = some f → ∃ f', s'.frame? g = some f' ∧ f'.outer = f.outer ∧
    ∀ kept : String → Bool, (∀ x, changing g x → kept x = false) →
      f'.bindings.filter (fun p => kept p.1) = f.bindings.filter fun p => kept p.1

namespace Retains

/-- A store that has the same frames. -/
theorem of_frames (h : s₁.frames = s.frames) : s.Retains P s₁ := by
  intro g f hf
  have hf' : s₁.frame? g = some f := by rw [frame?, h]; exact hf
  exact ⟨f, hf', rfl, fun _ _ => rfl⟩

protected theorem refl (P : FrameId → String → Prop) (s : Store) : s.Retains P s :=
  of_frames rfl

/-- First one change and then another: what the second one may change must be permitted to change in the
frames that were there before both. -/
theorem trans (h₁ : s.Retains P s₁) (h₂ : s₁.Retains Q s₂)
    (hQ : ∀ g f x, s.frame? g = some f → Q g x → P g x) : s.Retains P s₂ := by
  intro g f hf
  obtain ⟨f₁, hf₁, houter₁, hkept₁⟩ := h₁ g f hf
  obtain ⟨f₂, hf₂, houter₂, hkept₂⟩ := h₂ g f₁ hf₁
  refine ⟨f₂, hf₂, houter₂.trans houter₁, fun kept hkept => ?_⟩
  rw [hkept₂ kept fun x hx => hkept x (hQ g f x hf hx), hkept₁ kept hkept]

/-- Binding a name that may change. -/
theorem bind (h : P i x) (v : Value) : s.Retains P (s.bind i x v) := by
  intro g f hf
  refine ⟨_, by rw [frame?_bind, hf, Option.map_some], ?_, fun kept hkept => ?_⟩
  · split <;> rfl
  · split
    · next hg =>
      subst hg
      exact Bindings.filter_set (hkept x h) f.bindings v
    · rfl

theorem addFrame (s : Store) (b : Bindings) (outer : Option FrameId) :
    s.Retains P (s.addFrame b outer).2 := by
  intro g f hf
  refine ⟨f, ?_, rfl, fun _ _ => rfl⟩
  rw [frame?_addFrame, if_neg (Nat.ne_of_lt (lt_size_of_frame? hf)), hf]

/-- A frame in which nothing may change is as it was. -/
theorem same_frame (h : s.Retains P s₁) (hf : s.frame? g = some f) (hP : ∀ x, ¬ P g x) :
    s₁.frame? g = some f := by
  obtain ⟨⟨b', o'⟩, hf', houter, hkept⟩ := h g f hf
  -- All names can be kept, so the bindings are compared as a whole.
  have hb : b' = f.bindings := by
    simpa using hkept (fun _ => true) fun x hx => absurd hx (hP x)
  obtain rfl : o' = f.outer := houter
  rw [hf', hb]

end Retains

end Store

/-! ## Runs -/

variable {π : Provenance} {P : FrameId → String → Prop}

/-- In a sequence the second part starts from what the first one has left, which keeps to the
provenance. -/
theorem Derives.bind_retains {α β : Type} {Q : α → Prop} {x : Run α} {f : α → Run β} {m : Machine}
    (hx : Derives π Q (x m)) (hstore : m.store.Retains P (x m).2.store)
    (hf : ∀ a (m₁ : Machine), m₁.store.From π → Q a → m₁.store.Retains P (f a m₁).2.store) :
    m.store.Retains P ((x >>= f) m).2.store := by
  rcases h : x m with ⟨o, m₁⟩
  have h₁ : m.store.Retains P m₁.store := by simpa only [h] using hstore
  cases o with
  | value a =>
    have hfrom : m₁.store.From π := by simpa only [h] using hx.store
    rw [Run.bind_of_value f h]
    exact h₁.trans (hf a m₁ hfrom (hx.value a (by rw [h]))) fun _ _ _ _ hP => hP
  | fault e =>
    rw [Run.bind_of_fault f h]
    exact h₁
  | exhausted =>
    rw [Run.bind_of_exhausted f h]
    exact h₁

theorem Run.report_retains (limit : Nat) (e : Event) (m : Machine) :
    m.store.Retains P (Run.report limit e m).2.store := by
  apply Store.Retains.of_frames
  unfold Run.report
  split
  · split <;> rfl
  · rfl

theorem Run.faultShowing_retains {α : Type} (limit : Nat) (v : Value) (make : String → Fault)
    (m : Machine) : m.store.Retains P (Run.faultShowing limit v make m : Outcome α × Machine).2.store := by
  apply Store.Retains.of_frames
  cases hshow : v.describe limit with
  | value text => rw [Run.faultShowing, Run.bind_of_value _ (by rw [Run.lift_apply, hshow])]; rfl
  | fault e => rw [Run.faultShowing, Run.bind_of_fault _ (by rw [Run.lift_apply, hshow])]
  | exhausted => rw [Run.faultShowing, Run.bind_of_exhausted _ (by rw [Run.lift_apply, hshow])]

/-! ## Evaluation -/

/-- A provenance that evaluation does not lead out of, in all frames, and that permits no assignment. -/
structure Provenance.Tame (π : Provenance) : Prop extends π.Closed where
  anywhere : ∀ i, π.frame i
  no_assign : ∀ id ops, ¬ π.code (.list id (.symbol Keyword.assign.name :: ops))

/-- Evaluating a form in a frame can change bindings of that frame only, and only of targets of the
form. -/
def Evaluator.Retains (π : Provenance) (ev : Evaluator) : Prop :=
  ∀ {form i} {m : Machine}, m.store.From π → π.code form →
    m.store.Retains (fun g x => g = i ∧ x ∈ form.targets) (ev form i m).2.store

section Evaluation

variable {limit : Nat} {ev : Evaluator} {i : FrameId} {m : Machine}

/-- Among the bindings that a part of a form may change are no others than the form may change. -/
theorem Evaluator.Retains.mono (hev : Evaluator.Retains π ev) {form : Value} (h : m.store.From π)
    (hform : π.code form) (hP : ∀ x ∈ form.targets, P i x) :
    m.store.Retains P (ev form i m).2.store := by
  apply (Store.Retains.refl P m.store).trans (hev h hform)
  rintro g f x - ⟨rfl, hx⟩
  exact hP x hx

theorem evalAll_retains (hπ : π.Tame) (hder : Evaluator.Derives π ev) (hev : Evaluator.Retains π ev)
    {forms : List Value} (h : m.store.From π) (hforms : ∀ form ∈ forms, π.code form)
    (hP : ∀ form ∈ forms, ∀ x ∈ form.targets, P i x) :
    m.store.Retains P (evalAll ev i forms m).2.store := by
  induction forms generalizing m with
  | nil => exact .refl _ _
  | cons form forms ih =>
    obtain ⟨hform, hforms⟩ := List.forall_mem_cons.1 hforms
    obtain ⟨hPform, hPforms⟩ := List.forall_mem_cons.1 hP
    apply (hder h hform (hπ.anywhere i)).bind_retains (hev.mono h hform hPform)
    intro v m₁ h₁ _
    apply (evalAll_derives hder (hπ.anywhere i) h₁ hforms).bind_retains (ih h₁ hforms hPforms)
    intro vs m₂ _ _
    exact .refl _ _

theorem evalLast_retains (hπ : π.Tame) (hder : Evaluator.Derives π ev) (hev : Evaluator.Retains π ev)
    {last : Value} {forms : List Value} (h : m.store.From π) (hforms : ∀ form ∈ forms, π.code form)
    (hP : ∀ form ∈ forms, ∀ x ∈ form.targets, P i x) :
    m.store.Retains P (evalLast ev i last forms m).2.store := by
  induction forms generalizing m last with
  | nil => exact .refl _ _
  | cons form forms ih =>
    obtain ⟨hform, hforms⟩ := List.forall_mem_cons.1 hforms
    obtain ⟨hPform, hPforms⟩ := List.forall_mem_cons.1 hP
    apply (hder h hform (hπ.anywhere i)).bind_retains (hev.mono h hform hPform)
    intro v m₁ h₁ _
    exact ih h₁ hforms hPforms

/-- The rule of a keyword changes at most what its form has for targets. An assignment is not code. -/
theorem Keyword.run_retains (hπ : π.Tame) (hder : Evaluator.Derives π ev)
    (hev : Evaluator.Retains π ev) {k : Keyword} {ops : List Value} {id : Option ObjectId}
    (h : m.store.From π) (hcode : π.code (.list id (.symbol k.name :: ops))) :
    m.store.Retains (fun g x => g = i ∧ x ∈ (Value.list id (.symbol k.name :: ops)).targets)
      (k.run limit ev ops i m).2.store := by
  have hi := hπ.anywhere i
  have hop := hπ.operand hcode
  -- What the operands define the form defines.
  have htarget : k ≠ .quote → k ≠ .lambda → ∀ form ∈ ops, ∀ x ∈ form.targets,
      i = i ∧ x ∈ (Value.list id (.symbol k.name :: ops)).targets := by
    intro hquote hlambda form hform x hx
    have hk : (Value.symbol k.name).keyword? = some k := k.ofName?_name
    refine ⟨rfl, Value.mem_targets_of_mem ?_ ?_ (List.mem_cons_of_mem _ hform) hx⟩
    · simpa [hk] using hquote
    · simpa [hk] using hlambda
  cases k.shape ops with
  | misused htakes =>
    rw [Keyword.run_of_not_takes htakes]
    exact .refl _ _
  | quote => exact .refl _ _
  | @cond test yes no hno =>
    have hop := hop (by simp) (by simp)
    have htarget := htarget (by simp) (by simp)
    rw [Keyword.run, runCond_eq hno]
    apply (hder h (hop test (by simp)) hi).bind_retains
      (hev.mono h (hop test (by simp)) (htarget test (by simp)))
    intro v m₁ h₁ _
    split
    · exact hev.mono h₁ (hop yes (by simp)) (htarget yes (by simp))
    · split
      · exact .refl _ _
      · exact hev.mono h₁ (hop _ (by simp)) (htarget _ (by simp))
  | assign => exact absurd hcode (hπ.no_assign _ _)
  | @define x form =>
    have hform := hop (by simp) (by simp) form (by simp)
    apply (hder h hform hi).bind_retains
      (hev.mono h hform (htarget (by simp) (by simp) form (by simp)))
    intro v m₁ h₁ _
    -- The one place where a frame that was there is changed.
    exact .bind ⟨rfl, Value.target_mem_targets⟩ v
  | badTarget hk ht =>
    rw [run_of_badTarget hk ht]
    exact Run.faultShowing_retains _ _ _ _
  | lambda =>
    rw [Keyword.run, Keyword.runLambda_symbols]
    apply (Derives.report _ _ h).bind_retains (Run.report_retains _ _ m)
    intro _ m₁ _ _
    exact .of_frames rfl
  | badParameters hparams =>
    rw [Keyword.run, runLambda_of_bad hparams]
    exact Run.faultShowing_retains _ _ _ _
  | begin =>
    exact evalLast_retains hπ hder hev h (hop (by simp) (by simp)) (htarget (by simp) (by simp))

/-- An application changes no frame that is there already: the body of a closure is evaluated in a frame
of its own. -/
theorem apply_retains (hπ : π.Tame) (hev : Evaluator.Retains π ev) {v : Value} {args : List Value}
    (h : m.store.From π) (hv : v.From π) (hargs : ∀ a ∈ args, a.From π) :
    m.store.Retains P (apply limit ev v args m).2.store := by
  cases v with
  | primitive p home => exact .of_frames rfl
  | closure id formals body captured =>
    rcases Scope.makeFor_cases limit formals args captured m with
      ⟨names, -, hmake⟩ | ⟨o, hmake, ho⟩
    · obtain ⟨h₁, hbody, -⟩ := h.makeFor hπ.toClosed hv hargs hmake
      rw [apply, Run.bind_of_value _ hmake]
      refine (Store.Retains.addFrame m.store (Bindings.ofPairs (names.zip args)) (some captured)).trans
        ((Derives.report _ _ h₁).bind_retains (Run.report_retains _ _ _)
          fun _ m₂ h₂ _ => hev h₂ hbody) ?_
      -- The new frame stands behind all frames that were there.
      rintro g f x hf ⟨rfl, -⟩
      exact absurd (Store.lt_size_of_frame? hf) (Nat.lt_irrefl _)
    · cases o with
      | value i => exact absurd rfl (ho i)
      | fault e =>
        rw [apply, Run.bind_of_fault _ hmake]
        exact .refl _ _
      | exhausted =>
        rw [apply, Run.bind_of_exhausted _ hmake]
        exact .refl _ _
  | _ =>
    rw [apply_of_not_procedure (by simp [Value.IsProcedure, Value.kind])]
    exact Run.faultShowing_retains _ _ _ _

theorem evalStep_retains (hπ : π.Tame) {deeper : Nat → Evaluator}
    (hder : ∀ k, Evaluator.Derives π (deeper k)) (hdeep : ∀ k, Evaluator.Retains π (deeper k)) :
    Evaluator.Retains π (evalStep limit deeper) := by
  intro form i m h hcode
  have hi := hπ.anywhere i
  cases form with
  | symbol x =>
    rw [evalStep, Scope.lookup_apply]
    exact .refl _ _
  | list id items =>
    cases items with
    | nil => exact Run.faultShowing_retains _ _ _ _
    | cons head ops =>
      simp only [evalStep]
      cases hk : head.keyword? with
      | some k =>
        obtain rfl := Value.keyword?_eq_some_iff.1 hk
        apply (Derives.report _ _ h).bind_retains (Run.report_retains _ _ m)
        intro _ m₁ h₁ _
        exact k.run_retains hπ (hder 1) (hdeep 1) h₁ hcode
      | none =>
        have htarget : ∀ form ∈ head :: ops, ∀ x ∈ form.targets,
            i = i ∧ x ∈ (Value.list id (head :: ops)).targets := fun form hform x hx =>
          ⟨rfl, Value.mem_targets_of_mem (by simp [hk]) (by simp [hk]) hform hx⟩
        obtain ⟨hhead, hops⟩ := List.forall_mem_cons.1 (hπ.item hcode hk)
        obtain ⟨hThead, hTops⟩ := List.forall_mem_cons.1 htarget
        apply (hder 1 h hhead hi).bind_retains (Evaluator.Retains.mono (hdeep 1) h hhead hThead)
        intro procedure m₁ h₁ hprocedure
        apply (evalAll_derives (hder 1) hi h₁ hops).bind_retains
          (evalAll_retains hπ (hder 1) (hdeep 1) h₁ hops hTops)
        intro args m₂ h₂ hargs
        exact apply_retains hπ (hdeep 2) h₂ hprocedure hargs
  | _ => exact .refl _ _

/-- Where nothing is assigned, evaluating a form in a frame can change bindings of that frame only, and
only of targets of the form. -/
theorem eval_retains (hπ : π.Tame) (limit : Nat) : Evaluator.Retains π (eval limit) := by
  induction limit using Nat.strongRecOn with
  | ind limit ih =>
    cases limit with
    | zero =>
      intro form i m _ _
      rw [eval]
      exact .refl _ _
    | succ limit =>
      rw [eval]
      exact evalStep_retains hπ (fun k => eval_derives hπ.toClosed (limit - k))
        fun k => ih (limit - k) (by omega)

end Evaluation

/-! ## Programs without assignments -/

/-- Code without assignments, in a form and in all closures. -/
theorem Provenance.tame_assigns : (Provenance.meeting fun v => v.assigns = false).Tame where
  toClosed := hereditary_assigns.closed
  anywhere _ := trivial
  no_assign id ops h := by
    have hk : (Value.symbol Keyword.assign.name).keyword? = some .assign := rfl
    simp [Provenance.meeting, Value.assigns, hk] at h

/-- **Without assignments nothing old changes.** Let no list that begins with `set!` occur, outside quoted
data, in a form or in the body of a closure that occurs in the form or is bound in the store, at any depth.
However the evaluation of the form ends, every frame but the one of the form is exactly as it was, with its
bindings, their values and their order. In the frame of the form all bindings are as they were but those
of targets of `define` forms that occur in the form, outside quoted data and the bodies of `lambda` forms; if
there are none, that frame is exactly as it was too. -/
theorem evaluate_retains (limit : Nat) (form : Value) (i : FrameId) (m : Machine)
    (hform : form.assigns = false) (hbodies : form.BodiesMeet fun v => v.assigns = false)
    (hstore : ∀ g f, m.store.frame? g = some f →
      ∀ p ∈ f.bindings, p.2.BodiesMeet fun v => v.assigns = false) :
    (∀ g f, m.store.frame? g = some f → g ≠ i →
      (evaluate limit form i m).2.store.frame? g = some f) ∧
    (∀ f, m.store.frame? i = some f → ∃ f', (evaluate limit form i m).2.store.frame? i = some f' ∧
      f'.outer = f.outer ∧
      f'.bindings.filter (fun p => p.1 ∉ form.targets) = f.bindings.filter fun p => p.1 ∉ form.targets) ∧
    (form.targets = [] → ∀ g f, m.store.frame? g = some f →
      (evaluate limit form i m).2.store.frame? g = some f) := by
  have hfrom : m.store.From (.meeting fun v => v.assigns = false) := by
    refine ⟨fun _ hf p hp => ⟨trivial, Value.from_meeting _ (hstore _ _ hf p hp)⟩, ?_, ?_⟩
    · intros; trivial
    · intros; trivial
  have heval : m.store.Retains (fun g x => g = i ∧ x ∈ form.targets)
      (evaluate limit form i m).2.store :=
    eval_retains Provenance.tame_assigns limit hfrom ⟨hform, hbodies⟩
  refine ⟨?_, ?_, ?_⟩
  · intro g f hf hg
    exact heval.same_frame hf fun x hx => hg hx.1
  · intro f hf
    obtain ⟨f', hf', houter, hkept⟩ := heval i f hf
    exact ⟨f', hf', houter, hkept (fun x => x ∉ form.targets) fun x hx => by simpa using hx.2⟩
  · intro htargets g f hf
    apply heval.same_frame hf
    rintro x ⟨-, hx⟩
    rw [htargets] at hx
    cases hx

/-- `(begin (define x 5) x)`. -/
private def shadowingBody : Value :=
  .literal [.symbol "begin", .literal [.symbol "define", .symbol "x", .int 5], .symbol "x"]

/-- A frame with `x` and with a procedure `f` that defines an `x` of its own. -/
private def shadowingFrame : Frame :=
  ⟨[("x", .int 1), ("f", .closure 0 [] shadowingBody 0)], none⟩

/-- Inside that frame another one, with `y`. -/
private def shadowingMachine : Machine :=
  ⟨⟨#[shadowingFrame, ⟨[("y", .int 2)], some 0⟩], 1⟩, Log.new .warning⟩

/-- `(begin (define z (f)) (quote (set! x 3)))`. -/
private def shadowingForm : Value :=
  .literal [.symbol "begin", .literal [.symbol "define", .symbol "z", .literal [.symbol "f"]],
    .literal [.symbol "quote", .literal [.symbol "set!", .symbol "x", .int 3]]]

private theorem shadowingForm_isLiteral : shadowingForm.IsLiteral := by
  have hdefine : (Value.literal [.symbol "define", .symbol "z", .literal [.symbol "f"]]).IsLiteral :=
    .list (by simpa using ⟨.symbol, .symbol, .list (by simpa using .symbol)⟩)
  have hquote : (Value.literal [.symbol "quote",
      .literal [.symbol "set!", .symbol "x", .int 3]]).IsLiteral :=
    .list (by simpa using ⟨.symbol, .list (by simpa using ⟨.symbol, .symbol, .int⟩)⟩)
  exact .list (by simpa using ⟨.symbol, hdefine, hquote⟩)

private theorem shadowingBody_isLiteral : shadowingBody.IsLiteral :=
  .list (by simpa using ⟨.symbol, .list (by simpa using ⟨.symbol, .symbol, .int⟩), .symbol⟩)

/-- The form calls a closure that defines `x`, and quotes an assignment to `x`. It is evaluated in the
inner frame: the outer frame stays exactly as it is, and the inner one can change at `z` only. -/
theorem evaluate_retains_shadowing :
    shadowingForm.assigns = false ∧ shadowingForm.targets = ["z"] ∧
    (evaluate 20 shadowingForm 1 shadowingMachine).2.store.frame? 0 = some shadowingFrame ∧
    ∃ f', (evaluate 20 shadowingForm 1 shadowingMachine).2.store.frame? 1 = some f' ∧
      f'.bindings.filter (fun p => p.1 ∉ ["z"]) = [("y", .int 2)] := by
  have hform : shadowingForm.assigns = false := by decide
  have htargets : shadowingForm.targets = ["z"] := by decide
  have hbody : shadowingBody.assigns = false ∧ shadowingBody.BodiesMeet fun v => v.assigns = false :=
    ⟨by decide, .of_isLiteral shadowingBody_isLiteral⟩
  have hstore : ∀ g f, shadowingMachine.store.frame? g = some f →
      ∀ p ∈ f.bindings, p.2.BodiesMeet fun v => v.assigns = false := by
    intro g f hf p hp
    rcases g with _ | _ | g
    · cases hf
      have hp : p = ("x", .int 1) ∨ p = ("f", .closure 0 [] shadowingBody 0) := by
        simpa [shadowingMachine, shadowingFrame] using hp
      rcases hp with rfl | rfl
      · exact .of_isLiteral .int
      · exact .closure (by simp) hbody
    · cases hf
      obtain rfl := List.mem_singleton.1 hp
      exact .of_isLiteral .int
    · cases hf
  obtain ⟨hothers, hown, -⟩ := evaluate_retains 20 shadowingForm 1 shadowingMachine hform
    (.of_isLiteral shadowingForm_isLiteral) hstore
  obtain ⟨f', hf', -, hkept⟩ := hown _ rfl
  rw [htargets] at hkept
  exact ⟨hform, htargets, hothers 0 _ rfl (by decide), f', hf', hkept⟩

end Lisplet
