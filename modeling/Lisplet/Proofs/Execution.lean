import Lisplet.Proofs.Limits
import Lisplet.Proofs.Scoping
import Mathlib.Data.List.Find

/-!
# Running programs that assign nothing

A program without assignments and definitions changes no frame: it only adds some. Here are the rules to
run such a program by hand, form by form. One judgement says all there is to know about a run at a depth
limit: what its value is like, that it was cut off only if the limit is short, and that in either case
the frames from before are as they were.

Main definitions: `Store.Grows`, `Run.Delivers`. Main statements: `Store.Grows.lookup?_eq`,
`Run.Delivers.bind`, `Run.Delivers.eval_call`, `Run.Delivers.apply_closure`.
-/

namespace Lisplet

/-! ## Stores that grow -/

namespace Store

variable {s s₁ s₂ : Store} {i j captured : FrameId} {x : String} {b : Bindings}

/-- Every frame of the first store is the same in the second one. -/
def Grows (s s' : Store) : Prop :=
  ∀ ⦃i f⦄, s.frame? i = some f → s'.frame? i = some f

/-- The frames of a chain are the frame that it starts from and older ones. -/
theorem le_of_mem_chain (h : j ∈ s.chain i) : j ≤ i := by
  induction i using Nat.strongRecOn with
  | ind i ih =>
    rw [chain] at h
    split at h
    · cases h
    · rcases List.mem_cons.1 h with rfl | h
      · exact Nat.le_refl _
      · split at h
        · cases h
        · split at h
          · next hlt => exact Nat.le_trans (ih _ hlt h) (Nat.le_of_lt hlt)
          · cases h

namespace Grows

protected theorem refl (s : Store) : s.Grows s :=
  fun _ _ hf => hf

protected theorem trans (h₁ : s.Grows s₁) (h₂ : s₁.Grows s₂) : s.Grows s₂ :=
  fun _ _ hf => h₂ (h₁ hf)

theorem addFrame (s : Store) (b : Bindings) (outer : Option FrameId) :
    s.Grows (s.addFrame b outer).2 := by
  intro i f hf
  rw [frame?_addFrame, if_neg (Nat.ne_of_lt (lt_size_of_frame? hf)), hf]

theorem lt_size (h : s.Grows s₁) (hi : i < s.frames.size) : i < s₁.frames.size := by
  obtain ⟨f, hf⟩ := exists_frame? hi
  exact lt_size_of_frame? (h hf)

theorem bindings_eq (h : s.Grows s₁) (hi : i < s.frames.size) : s₁.bindings i = s.bindings i := by
  obtain ⟨f, hf⟩ := exists_frame? hi
  simp only [bindings, hf, h hf]

/-- The chain of a frame goes through older frames only, so it is the same. -/
theorem chain_eq (h : s.Grows s₁) (hi : i < s.frames.size) : s₁.chain i = s.chain i := by
  induction i using Nat.strongRecOn with
  | ind i ih =>
    obtain ⟨f, hf⟩ := exists_frame? hi
    rw [chain, chain, hf, h hf]
    cases ho : f.outer with
    | none => simp only [ho]
    | some o =>
      simp only [ho]
      split
      · next hlt => rw [ih o hlt (Nat.lt_trans hlt hi)]
      · rfl

/-- What is seen from a frame stays what it was. -/
theorem lookup?_eq (h : s.Grows s₁) (hi : i < s.frames.size) (x : String) :
    s₁.lookup? i x = s.lookup? i x := by
  have hold : ∀ j ∈ s.chain i, j < s.frames.size := by
    intro j hj
    exact Nat.lt_of_le_of_lt (le_of_mem_chain hj) hi
  have hfind : s₁.find? i x = s.find? i x := by
    rw [find?, find?, h.chain_eq hi]
    apply List.find?_congr
    intro j hj
    rw [h.bindings_eq (hold j hj)]
  rw [lookup?, lookup?, hfind]
  cases hj : s.find? i x with
  | none => rfl
  | some j =>
    have hlt := hold j (List.mem_of_find?_eq_some hj)
    simp only [Option.bind_some, get?, h.bindings_eq hlt]

end Grows

/-- A frame that was just added binds its own names, and shows what its outer frame shows. -/
theorem lookup?_addFrame (s : Store) (b : Bindings) (captured : FrameId) (x : String) :
    (s.addFrame b (some captured)).2.lookup? s.frames.size x = (b.get? x).or (s.lookup? captured x) := by
  have hf : (s.addFrame b (some captured)).2.frame? s.frames.size = some ⟨b, some captured⟩ := by
    rw [frame?_addFrame, if_pos rfl]
  cases hx : b.get? x with
  | some v =>
    have hfind := find?_of_binds (x := x) hf (by simp [Bindings.binds, hx])
    simp [lookup?, hfind, get?, bindings, hf, hx]
  | none =>
    have hbinds : b.binds x = false := by simp [Bindings.binds, hx]
    by_cases hc : captured < s.frames.size
    · have hfind := find?_outward (x := x) hf hbinds rfl hc
      rw [lookup?, hfind, ← lookup?, (Grows.addFrame s b (some captured)).lookup?_eq hc]
      rfl
    · -- A frame that is not there shows nothing, and the search does not go to it.
      have hfind : (s.addFrame b (some captured)).2.find? s.frames.size x = none := by
        rw [find?, chain, hf]
        simp [hc, bindings, hf, hbinds]
      have hnone := find?_of_frame?_none (Array.getElem?_eq_none (Nat.le_of_not_lt hc)) x
      rw [lookup?, lookup?, hfind, hnone]
      rfl

end Store

/-- A source of one form at any limit: the form is read, or reading is cut off. -/
theorem readForms_single {deep : Nat} {text : String} {form : Value}
    (hread : readForms deep text = ⟨[form], none⟩) (limit : Nat) :
    readForms limit text = ⟨[form], none⟩ ∨ limit < deep ∧
      (readForms limit text).failure = some (.tooDeep .reading) ∧
      ((readForms limit text).forms = [] ∨ (readForms limit text).forms = [form]) := by
  by_cases hdeep : deep ≤ limit
  · rcases (TokenStream.ofSource text).readAll_approx hdeep with heq | ⟨hcut, -⟩
    · exact Or.inl (heq.symm.trans hread)
    · exact absurd (hcut.symm.trans (congrArg Reading.failure hread)) (by simp)
  · rcases (TokenStream.ofSource text).readAll_approx (Nat.le_of_not_le hdeep) with heq | ⟨hcut, hforms⟩
    · exact Or.inl (heq.trans hread)
    · have hforms' : (readForms limit text).forms <+: (readForms deep text).forms := hforms
      rw [hread, List.prefix_cons_iff] at hforms'
      refine Or.inr ⟨Nat.lt_of_not_le hdeep, hcut, hforms'.imp_right ?_⟩
      rintro ⟨rest, hrest, hnil⟩
      rw [hrest, List.prefix_nil.1 hnil]

/-! ## The judgement -/

namespace Run

variable {α β : Type} {s : Store} {short short' : Prop} {x : Run α} {f : α → Run β}

/-- Whatever the log holds, the run changes no frame of the store. It ends with a value, of which `P`
holds with the store then, or it is cut off, and that only if the depth is short. -/
def Delivers (x : Run α) (s : Store) (short : Prop) (P : α → Store → Prop) : Prop :=
  ∀ log, ∃ o s' log', x ⟨s, log⟩ = (o, ⟨s', log'⟩) ∧ s.Grows s' ∧
    ((∃ a, o = .value a ∧ P a s') ∨ (o.CutOff ∧ short))

namespace Delivers

variable {P : α → Store → Prop} {Q : β → Store → Prop}

protected theorem pure {a : α} (h : P a s) : Delivers (pure a) s short P :=
  fun log => ⟨.value a, s, log, rfl, .refl s, Or.inl ⟨a, rfl, h⟩⟩

theorem exhausted (h : short) : Delivers (Run.exhausted : Run α) s short P :=
  fun log => ⟨.exhausted, s, log, rfl, .refl s, Or.inr ⟨Or.inl rfl, h⟩⟩

theorem tooDeep (activity : Activity) (h : short) :
    Delivers (Run.fault (.tooDeep activity) : Run α) s short P :=
  fun log => ⟨_, s, log, rfl, .refl s, Or.inr ⟨Or.inr ⟨activity, rfl⟩, h⟩⟩

theorem lift {a : α} (h : P a s) : Delivers (Run.lift (.value a)) s short P :=
  .pure h

theorem update {g : Store → α × Store} (hgrows : s.Grows (g s).2) (h : P (g s).1 (g s).2) :
    Delivers (Run.update g) s short P :=
  fun log => ⟨.value (g s).1, (g s).2, log, rfl, hgrows, Or.inl ⟨_, rfl, h⟩⟩

theorem report {limit : Nat} {e : Event} {text : String} {P : Unit → Store → Prop}
    (hmessage : e.message limit = .value text) (h : P () s) :
    Delivers (Run.report limit e) s short P := by
  intro log
  obtain ⟨log', hlog⟩ := report_of_message hmessage ⟨s, log⟩
  exact ⟨.value (), s, log', hlog, .refl s, Or.inl ⟨(), rfl, h⟩⟩

protected theorem bind (hx : Delivers x s short P)
    (hf : ∀ a s', s.Grows s' → P a s' → Delivers (f a) s' short Q) :
    Delivers (x >>= f) s short Q := by
  intro log
  obtain ⟨o, s₁, log₁, h₁, hgrows, ⟨a, rfl, ha⟩ | ⟨rfl | ⟨activity, rfl⟩, hshort⟩⟩ := hx log
  · obtain ⟨o, s₂, log₂, h₂, hgrows', hend⟩ := hf a s₁ hgrows ha log₁
    exact ⟨o, s₂, log₂, by rw [bind_of_value f h₁, h₂], hgrows.trans hgrows', hend⟩
  · exact ⟨_, s₁, log₁, bind_of_exhausted f h₁, hgrows, Or.inr ⟨Or.inl rfl, hshort⟩⟩
  · exact ⟨_, s₁, log₁, bind_of_fault f h₁, hgrows, Or.inr ⟨Or.inr ⟨activity, rfl⟩, hshort⟩⟩

/-- A run that is cut off is so too when that counts as a fault. -/
theorem guard (activity : Activity) (hx : Delivers x s short P) :
    Delivers (x.guard activity) s short P := by
  intro log
  obtain ⟨o, s₁, log₁, h₁, hgrows, hend⟩ := hx log
  refine ⟨Outcome.ofExcept (o.toExcept activity), s₁, log₁, by rw [Run.guard, h₁], hgrows, ?_⟩
  rcases hend with ⟨a, rfl, ha⟩ | ⟨rfl | ⟨deeper, rfl⟩, hshort⟩
  · exact Or.inl ⟨a, rfl, ha⟩
  · exact Or.inr ⟨Or.inr ⟨activity, rfl⟩, hshort⟩
  · exact Or.inr ⟨Or.inr ⟨deeper, rfl⟩, hshort⟩

theorem mono {P' : α → Store → Prop} (hx : Delivers x s short P) (hshort : short → short')
    (hP : ∀ a s', P a s' → P' a s') : Delivers x s short' P' := by
  intro log
  obtain ⟨o, s₁, log₁, h₁, hgrows, hend⟩ := hx log
  refine ⟨o, s₁, log₁, h₁, hgrows, ?_⟩
  rcases hend with ⟨a, ho, ha⟩ | ⟨ho, hcut⟩
  · exact Or.inl ⟨a, ho, hP a s₁ ha⟩
  · exact Or.inr ⟨ho, hshort hcut⟩

/-! ## Forms -/

section Forms

variable {limit : Nat} {ev : Evaluator} {i home captured : FrameId} {id : Option ObjectId}
  {name : String} {form v : Value} {forms ops : List Value} {Q : Value → Store → Prop}

theorem eval_symbol (hv : s.lookup? i name = some v) (hlimit : limit = 0 → short) :
    Delivers (eval limit (.symbol name) i) s short fun w s' => w = v ∧ s' = s := by
  cases limit with
  | zero =>
    rw [eval]
    exact .exhausted (hlimit rfl)
  | succ limit =>
    intro log
    refine ⟨.value v, s, log, ?_, .refl s, Or.inl ⟨v, rfl, rfl, rfl⟩⟩
    rw [eval]
    show Scope.lookup i name ⟨s, log⟩ = _
    rw [Scope.lookup_apply, hv]

theorem eval_int (n : Int) (hlimit : limit = 0 → short) :
    Delivers (eval limit (.int n) i) s short fun w s' => w = .int n ∧ s' = s := by
  cases limit with
  | zero =>
    rw [eval]
    exact .exhausted (hlimit rfl)
  | succ limit =>
    rw [eval]
    exact .pure ⟨rfl, rfl⟩

theorem evalAll_nil {P : List Value → Store → Prop} (h : P [] s) :
    Delivers (evalAll ev i []) s short P :=
  .pure h

theorem evalAll_cons {P : Value → Store → Prop} {R : List Value → Store → Prop}
    (hform : Delivers (ev form i) s short P)
    (hforms : ∀ v s', s.Grows s' → P v s' →
      Delivers (evalAll ev i forms) s' short fun vs s'' => R (v :: vs) s'') :
    Delivers (evalAll ev i (form :: forms)) s short R := by
  refine hform.bind fun v s₁ hgrows hv => ?_
  refine (hforms v s₁ hgrows hv).bind fun vs s₂ _ hvs => ?_
  exact .pure hvs

/-- A special form follows the rule of its keyword. -/
theorem eval_keyword (k : Keyword) (hlimit : limit = 0 → short)
    (h : Delivers (k.run (limit - 2) (eval (limit - 2)) ops i) s short Q) :
    Delivers (eval limit (.list id (.symbol k.name :: ops)) i) s short Q := by
  cases limit with
  | zero =>
    rw [eval]
    exact .exhausted (hlimit rfl)
  | succ limit =>
    have hkeyword : (Value.symbol k.name).keyword? = some k := Value.keyword?_eq_some_iff.2 rfl
    rw [eval]
    simp only [evalStep, hkeyword]
    refine Delivers.bind (P := fun _ s' => s' = s) (.report rfl rfl) ?_
    rintro _ _ - rfl
    exact h

/-- The application of a name: its value is applied to the values of the operands. -/
theorem eval_call {A : List Value → Store → Prop} (hname : (Value.symbol name).keyword? = none)
    (hv : s.lookup? i name = some v) (hlimit : limit < 3 → short)
    (hops : Delivers (evalAll (eval (limit - 2)) i ops) s short A)
    (hcall : ∀ args s', s.Grows s' → A args s' →
      Delivers (apply (limit - 3) (eval (limit - 3)) v args) s' short Q) :
    Delivers (eval limit (.list id (.symbol name :: ops)) i) s short Q := by
  cases limit with
  | zero =>
    rw [eval]
    exact .exhausted (hlimit (by omega))
  | succ limit =>
    rw [eval]
    simp only [evalStep, hname]
    refine (eval_symbol hv fun hzero => hlimit (by omega)).bind ?_
    rintro _ _ - ⟨rfl, rfl⟩
    exact hops.bind hcall

/-- A conditional goes on with the branch that its test chooses. -/
theorem runCond {test yes no : Value} (answer : Bool)
    (htest : Delivers (ev test i) s short fun v _ => v = .bool answer)
    (hbranch : ∀ s', s.Grows s' → Delivers (ev (if answer then yes else no) i) s' short Q) :
    Delivers (Keyword.cond.run limit ev [test, yes, no] i) s short Q := by
  refine htest.bind ?_
  rintro _ s₁ hgrows rfl
  cases answer with
  | true => exact hbranch s₁ hgrows
  | false => exact hbranch s₁ hgrows

/-- A `lambda` form makes a closure over the frame it stands in. -/
theorem runLambda (names : List String) (body : Value) :
    Delivers (Keyword.lambda.run limit ev [.list id (symbols names), body] i) s short
      fun v _ => ∃ id, v = .closure id (symbols names) body i := by
  rw [Keyword.run, Keyword.runLambda_symbols]
  refine Delivers.bind (P := fun _ s' => s' = s) (.report rfl rfl) ?_
  rintro _ _ - rfl
  exact .update (fun _ _ hf => hf) ⟨_, rfl⟩

/-! ## Calls -/

theorem apply_primitive {p : Primitive} {args : List Value} {r : ObjectId → Value}
    (hcall : ∀ id, p.call limit id args = .value (r id)) :
    Delivers (apply limit ev (.primitive p home) args) s short fun v _ => ∃ id, v = r id := by
  refine Delivers.bind (P := fun _ _ => True) (.update (fun _ _ hf => hf) trivial) ?_
  intro id s₁ _ _
  rw [hcall id]
  exact .lift ⟨id, rfl⟩

/-- The body of a closure is evaluated in a frame of its own. -/
theorem apply_closure {names : List String} {args : List Value} {body : Value} {id : ObjectId}
    (hlen : args.length = names.length)
    (hbody : Delivers (ev body s.frames.size)
      (s.addFrame (Bindings.ofPairs (names.zip args)) (some captured)).2 short Q) :
    Delivers (apply limit ev (.closure id (symbols names) body captured) args) s short Q := by
  obtain ⟨text, hmessage⟩ := applied_message limit names args.length
  rw [apply, Scope.makeFor_symbols hlen]
  refine Delivers.bind (P := fun j s' => j = s.frames.size ∧
      s' = (s.addFrame (Bindings.ofPairs (names.zip args)) (some captured)).2)
    (.update (Store.Grows.addFrame ..) ⟨rfl, rfl⟩) ?_
  rintro _ _ - ⟨rfl, rfl⟩
  refine Delivers.bind (P := fun _ s' =>
      s' = (s.addFrame (Bindings.ofPairs (names.zip args)) (some captured)).2)
    (.report hmessage rfl) ?_
  rintro _ _ - rfl
  exact hbody

/-! ## Sources -/

/-- A source with one form comes to what the form comes to, if the limit is deep enough to read it. -/
theorem evalSource_single (deep : Nat) {text : String} (hread : readForms deep text = ⟨[form], none⟩)
    (hlimit : limit < deep → short) (h : Delivers (eval limit form i) s short Q) :
    Delivers (evalSource limit text i) s short Q := by
  have hform : form ∈ (readForms limit text).forms →
      Delivers (evalForms limit i .noValue [form]) s short Q := by
    intro hmem
    obtain ⟨shown, hshown⟩ := describe_of_mem_readForms hmem
    refine Delivers.bind (P := fun _ s' => s' = s) (.report (Event.message_readForm hshown) rfl) ?_
    rintro _ _ - rfl
    exact (h.guard .evaluating).bind fun w s₁ _ hw => .pure hw
  unfold evalSource
  rcases readForms_single hread limit with hsame | ⟨hlt, hcut, hnone | hsome⟩
  · rw [hsame] at hform ⊢
    exact (hform (List.mem_singleton_self form)).bind fun v s₁ _ hv => .pure hv
  · simp only [hcut, hnone]
    exact Delivers.bind (P := fun _ s' => s' = s) (.pure rfl) fun _ _ _ _ => .tooDeep _ (hlimit hlt)
  · rw [hsome] at hform
    simp only [hcut, hsome]
    exact (hform (List.mem_singleton_self form)).bind fun _ _ _ _ => .tooDeep _ (hlimit hlt)

end Forms

/-- On a machine, a run that is never cut off without a fault. -/
theorem concluded {m : Machine} (h : Delivers x m.store short P) (hx : x.Concludes) :
    m.store.Grows (x m).2.store ∧ ((∃ a, (x m).1 = .value a ∧ P a (x m).2.store) ∨
      (∃ activity, (x m).1 = .fault (.tooDeep activity)) ∧ short) := by
  obtain ⟨o, s₁, log₁, h₁, hgrows, hend⟩ := h m.log
  obtain ⟨r, m', hr⟩ := hx m
  have hm : x m = (o, ⟨s₁, log₁⟩) := h₁
  rw [hm]
  refine ⟨hgrows, hend.imp_right fun ⟨hcut, hshort⟩ => ⟨hcut.resolve_left ?_, hshort⟩⟩
  rw [(Prod.mk.inj (hm.symm.trans hr)).1]
  exact Outcome.ofExcept_ne_exhausted r

end Delivers

end Run

end Lisplet
