import Lisplet.Proofs.Sessions
import Lisplet.Proofs.Tasks

/-!
# Where values come from

Programs and data are values of one type, but evaluation keeps them apart: what is evaluated is part of
a program, and a value is either quoted from a program, a closure with parameters and a body from a
program, or computed from other values. A provenance says which forms may be evaluated and what values
may be made of; if it is closed under what evaluation does, then every run that starts within it stays
within it, whatever comes of the run. That holds of the store, of the value, and of all tasks on the way.

Main definitions: `Provenance`, `Value.From`, `Provenance.Closed`, `Store.From`, `Task.From`,
`Value.Occurs`. Main statements: `eval_derives`, `evalSource_derives`, `Starts.from`,
`Session.start_from`.
-/

namespace Lisplet

/-- Which forms may be evaluated, and what values may be made of. -/
structure Provenance where
  /-- The forms that may be evaluated. -/
  code : Value → Prop
  /-- The parameters, the body and the frame that a closure may have. -/
  closure : List Value → Value → FrameId → Prop
  symbol : String → Prop
  text : String → Prop
  /-- The frames that may be used. -/
  frame : FrameId → Prop

/-- The value is made of what the provenance permits. -/
inductive Value.From (π : Provenance) : Value → Prop where
  | noValue : Value.From π .noValue
  | bool {b : Bool} : Value.From π (.bool b)
  | int {n : Int} : Value.From π (.int n)
  | symbol {x : String} : π.symbol x → Value.From π (.symbol x)
  | list {id : Option ObjectId} {items : List Value} :
      (∀ v ∈ items, Value.From π v) → Value.From π (.list id items)
  | primitive {p : Primitive} {home : FrameId} : Value.From π (.primitive p home)
  | closure {id : ObjectId} {formals : List Value} {body : Value} {i : FrameId} :
      π.closure formals body i → Value.From π (.closure id formals body i)
  | text {s : String} : π.text s → Value.From π (.text s)

/-- Evaluation does not lead out of the provenance. -/
structure Provenance.Closed (π : Provenance) : Prop where
  /-- What stands for itself is a value that is permitted. -/
  atom : ∀ {v}, π.code v → v.isList = false → v.From π
  /-- The items of an application may be evaluated. -/
  item : ∀ {id head ops}, π.code (.list id (head :: ops)) → head.keyword? = none →
    ∀ v ∈ head :: ops, π.code v
  /-- The operands of a keyword may be evaluated, unless they are quoted data or a procedure. -/
  operand : ∀ {id k ops}, π.code (.list id (.symbol (Keyword.name k) :: ops)) → k ≠ .quote →
    k ≠ .lambda → ∀ v ∈ ops, π.code v
  quote : ∀ {id v}, π.code (.list id [.symbol Keyword.quote.name, v]) → v.From π
  lambda : ∀ {id id' names form forms i},
    π.code (.list id (.symbol Keyword.lambda.name :: .list id' (symbols names) :: form :: forms)) →
    π.frame i → π.closure (symbols names) (Value.bodyOf (form :: forms)) i
  body : ∀ {formals body i}, π.closure formals body i → π.code body
  parameter : ∀ {names body i x}, π.closure (symbols names) body i → x ∈ names → π.symbol x
  captured : ∀ {formals body i}, π.closure formals body i → π.frame i

variable {π : Provenance}

theorem Value.from_list_iff (id : Option ObjectId) (items : List Value) :
    (Value.list id items).From π ↔ ∀ v ∈ items, v.From π := by
  constructor
  · intro h
    cases h with
    | list hitems => exact hitems
  · exact .list

theorem Value.from_symbol_iff {x : String} : (Value.symbol x).From π ↔ π.symbol x := by
  constructor
  · intro h
    cases h with
    | symbol hx => exact hx
  · exact .symbol

/-- A tree is permitted if the names in it are. -/
theorem IsTree.from {P : String → Prop} (hP : ∀ x, P x → π.symbol x) {v : Value} (h : IsTree P v) :
    v.From π := by
  induction h with
  | int => exact .int
  | symbol hx => exact .symbol (hP _ hx)
  | list _ ih => exact .list ih

theorem IsTree.bodyOf {P : String → Prop} (hbegin : P Keyword.begin.name) {forms : List Value}
    (h : ∀ form ∈ forms, IsTree P form) : IsTree P (Value.bodyOf forms) := by
  unfold Value.bodyOf
  split
  · next form => exact h form (List.mem_singleton_self form)
  · exact .list (List.forall_mem_cons.2 ⟨.symbol hbegin, h⟩)

/-- The first value is a part of the second one. -/
inductive Value.Occurs (w : Value) : Value → Prop where
  | self : Occurs w w
  | item {id : Option ObjectId} {items : List Value} {v : Value} :
      v ∈ items → Occurs w v → Occurs w (.list id items)
  | parameter {id : ObjectId} {formals : List Value} {body v : Value} {i : FrameId} :
      v ∈ formals → Occurs w v → Occurs w (.closure id formals body i)
  | body {id : ObjectId} {formals : List Value} {body : Value} {i : FrameId} :
      Occurs w body → Occurs w (.closure id formals body i)

/-- All parts of a permitted value are permitted, if those of closures are. -/
theorem Value.From.of_occurs (hparts : ∀ formals body i, π.closure formals body i →
      (∀ v ∈ formals, v.From π) ∧ body.From π) {v w : Value} (h : v.From π) (hw : w.Occurs v) :
    w.From π := by
  induction hw with
  | self => exact h
  | item hmem _ ih => exact ih ((Value.from_list_iff _ _).1 h _ hmem)
  | parameter hmem _ ih =>
    cases h with
    | closure hclosure => exact ih ((hparts _ _ _ hclosure).1 _ hmem)
  | body _ ih =>
    cases h with
    | closure hclosure => exact ih (hparts _ _ _ hclosure).2

/-- A primitive computes with its arguments. -/
theorem Primitive.call_from {limit : Nat} {id : ObjectId} {p : Primitive} {args : List Value} {v : Value}
    (h : p.call limit id args = .value v) (hargs : ∀ a ∈ args, a.From π) : v.From π :=
  Primitive.call_inherits .noValue (fun _ => .bool) (fun _ => .int)
    (fun _ _ => (Value.from_list_iff ..).1) (fun _ _ => .list) h hargs

/-! ## Stores -/

/-- Frames that may be used bind what is permitted and lie inside such frames, and new frames may be
used. -/
structure Store.From (π : Provenance) (s : Store) : Prop where
  bindings : ∀ {g f}, π.frame g → s.frame? g = some f →
    ∀ p ∈ f.bindings, π.symbol p.1 ∧ p.2.From π
  outer : ∀ {g f o}, π.frame g → s.frame? g = some f → f.outer = some o → π.frame o
  next : ∀ k, π.frame (s.frames.size + k)

namespace Store.From

variable {s : Store} {i j : FrameId} {x : String} {v : Value}

/-- All frames outward from a frame that may be used may be used. -/
theorem chain (h : s.From π) (hi : π.frame i) : ∀ j ∈ s.chain i, π.frame j := by
  induction i using Nat.strongRecOn with
  | ind i ih =>
    unfold Store.chain
    cases hf : s.frame? i with
    | none => simp
    | some f =>
      refine List.forall_mem_cons.2 ⟨hi, ?_⟩
      cases ho : f.outer with
      | none => simp
      | some o =>
        dsimp only
        split
        · next hlt => exact ih o hlt (h.outer hi hf ho)
        · simp

theorem find? (h : s.From π) (hi : π.frame i) (hj : s.find? i x = some j) : π.frame j :=
  h.chain hi j (List.mem_of_find?_eq_some hj)

theorem get? (h : s.From π) (hj : π.frame j) (hv : s.get? j x = some v) : v.From π := by
  unfold Store.get? Store.bindings at hv
  cases hf : s.frame? j with
  | none =>
    rw [hf] at hv
    cases hv
  | some f =>
    rw [hf] at hv
    exact (h.bindings hj hf _ (Bindings.mem_of_get? hv)).2

theorem lookup? (h : s.From π) (hi : π.frame i) (hv : s.lookup? i x = some v) : v.From π := by
  obtain ⟨j, hj, hget⟩ := Option.bind_eq_some_iff.1 hv
  exact h.get? (h.find? hi hj) hget

theorem bind (h : s.From π) (hx : π.symbol x) (hv : v.From π) : (s.bind i x v).From π where
  bindings := by
    intro g f hg hf
    rw [Store.frame?_bind] at hf
    obtain ⟨f₀, hf₀, rfl⟩ := Option.map_eq_some_iff.1 hf
    have hold := h.bindings hg hf₀
    split
    · intro p hp
      rcases Bindings.mem_set hp with hp | rfl
      · exact hold p hp
      · exact ⟨hx, hv⟩
    · exact hold
  outer := by
    intro g f o hg hf ho
    rw [Store.frame?_bind] at hf
    obtain ⟨f₀, hf₀, rfl⟩ := Option.map_eq_some_iff.1 hf
    refine h.outer hg hf₀ ?_
    split at ho <;> exact ho
  next k := by
    rw [Store.size_frames_bind]
    exact h.next k

theorem addFrame {b : Bindings} {outer : Option FrameId} (h : s.From π)
    (hb : ∀ p ∈ b, π.symbol p.1 ∧ p.2.From π) (houter : ∀ o, outer = some o → π.frame o) :
    (s.addFrame b outer).2.From π where
  bindings := by
    intro g f hg hf
    rcases Store.frame?_addFrame_cases hf with hold | ⟨-, rfl⟩
    · exact h.bindings hg hold
    · exact hb
  outer := by
    intro g f o hg hf ho
    rcases Store.frame?_addFrame_cases hf with hold | ⟨-, rfl⟩
    · exact h.outer hg hold ho
    · exact houter o ho
  next k := by
    have hnext := h.next (1 + k)
    rw [← Nat.add_assoc] at hnext
    rwa [Store.size_frames_addFrame]

/-- The frame of a call binds parameters to arguments. -/
theorem callFrame (h : s.From π) {names : List String} {args : List Value} {captured : FrameId}
    (hnames : ∀ x ∈ names, π.symbol x) (hargs : ∀ a ∈ args, a.From π) (hc : π.frame captured) :
    (s.addFrame (Bindings.ofPairs (names.zip args)) (some captured)).2.From π := by
  refine h.addFrame (fun p hp => ?_) (fun o ho => ?_)
  · have hzip := List.of_mem_zip (Bindings.mem_ofPairs hp)
    exact ⟨hnames p.1 hzip.1, hargs p.2 hzip.2⟩
  · cases ho
    exact hc

theorem addObject (h : s.From π) : s.addObject.2.From π :=
  ⟨h.bindings, h.outer, h.next⟩

end Store.From

/-! ## Runs -/

/-- The end of a run keeps to the provenance: the store does, and the value is as it should be. -/
structure Derives {α : Type} (π : Provenance) (Q : α → Prop) (r : Outcome α × Machine) : Prop where
  store : r.2.store.From π
  value : ∀ a, r.1 = .value a → Q a

namespace Derives

variable {α β : Type} {Q : α → Prop} {R : β → Prop} {x : Run α} {f : α → Run β} {m : Machine}

theorem lift {o : Outcome α} (h : m.store.From π) (hQ : ∀ a, o = .value a → Q a) :
    Derives π Q (Run.lift o m) :=
  ⟨h, hQ⟩

protected theorem pure {a : α} (h : m.store.From π) (ha : Q a) :
    Derives π Q ((pure a : Run α) m) := by
  refine ⟨h, fun b hb => ?_⟩
  cases hb
  exact ha

protected theorem bind (hx : Derives π Q (x m))
    (hf : ∀ a m₁, x m = (.value a, m₁) → m₁.store.From π → Q a → Derives π R (f a m₁)) :
    Derives π R ((x >>= f) m) := by
  rcases h : x m with ⟨o, m₁⟩
  have hstore : m₁.store.From π := by simpa only [h] using hx.store
  cases o with
  | value a =>
    rw [Run.bind_of_value f h]
    exact hf a m₁ h hstore (hx.value a (by rw [h]))
  | fault e =>
    rw [Run.bind_of_fault f h]
    exact ⟨hstore, by simp⟩
  | exhausted =>
    rw [Run.bind_of_exhausted f h]
    exact ⟨hstore, by simp⟩

theorem report (limit : Nat) (e : Event) (h : m.store.From π) :
    Derives π (fun _ => True) (Run.report limit e m) := by
  refine ⟨?_, fun _ _ => trivial⟩
  unfold Run.report
  split
  · split <;> exact h
  · exact h

theorem faultShowing (limit : Nat) (v : Value) (make : String → Fault) (h : m.store.From π) :
    Derives π Q (Run.faultShowing limit v make m) := by
  refine .bind (Q := fun _ => True) (.lift h fun _ _ => trivial) fun shown m₁ _ h₁ _ => ?_
  exact .lift h₁ (by simp)

theorem guard (activity : Activity) (hx : Derives π Q (x m)) :
    Derives π Q (x.guard activity m) := by
  refine ⟨hx.store, fun a ha => hx.value a ?_⟩
  revert ha
  show Outcome.ofExcept ((x m).1.toExcept activity) = .value a → _
  cases (x m).1 with
  | value b => exact id
  | fault e => exact id
  | exhausted => intro ha; cases ha

end Derives

/-! ## Evaluation -/

/-- On machines that keep to the provenance, forms that may be evaluated have permitted values, in
frames that may be used. -/
def Evaluator.Derives (π : Provenance) (ev : Evaluator) : Prop :=
  ∀ {form i} {m : Machine}, m.store.From π → π.code form → π.frame i →
    Lisplet.Derives π (Value.From π) (ev form i m)

section Evaluation

variable {limit : Nat} {ev : Evaluator} {i : FrameId} {m : Machine}

theorem evalAll_derives (hev : Evaluator.Derives π ev) (hi : π.frame i) {forms : List Value}
    (h : m.store.From π) (hforms : ∀ form ∈ forms, π.code form) :
    Derives π (fun vs => ∀ v ∈ vs, v.From π) (evalAll ev i forms m) := by
  induction forms generalizing m with
  | nil => exact .pure h (by simp)
  | cons form forms ih =>
    obtain ⟨hform, hforms⟩ := List.forall_mem_cons.1 hforms
    refine (hev h hform hi).bind fun v m₁ _ h₁ hv => ?_
    refine (ih h₁ hforms).bind fun vs m₂ _ h₂ hvs => ?_
    exact .pure h₂ (List.forall_mem_cons.2 ⟨hv, hvs⟩)

theorem evalLast_derives (hev : Evaluator.Derives π ev) (hi : π.frame i) {last : Value}
    {forms : List Value} (h : m.store.From π) (hlast : last.From π)
    (hforms : ∀ form ∈ forms, π.code form) :
    Derives π (Value.From π) (evalLast ev i last forms m) := by
  induction forms generalizing m last with
  | nil => exact .pure h hlast
  | cons form forms ih =>
    obtain ⟨hform, hforms⟩ := List.forall_mem_cons.1 hforms
    exact (hev h hform hi).bind fun v m₁ _ h₁ hv => ih h₁ hv hforms

theorem Provenance.Closed.symbol (hπ : π.Closed) {x : String} (hcode : π.code (.symbol x)) :
    π.symbol x :=
  Value.from_symbol_iff.1 (hπ.atom hcode rfl)

/-- The rule of a keyword keeps to the provenance if the form may be evaluated. -/
theorem Keyword.run_derives (hπ : π.Closed) (hev : Evaluator.Derives π ev) {k : Keyword}
    {ops : List Value} {id : Option ObjectId} (h : m.store.From π)
    (hcode : π.code (.list id (.symbol k.name :: ops))) (hi : π.frame i) :
    Derives π (Value.From π) (k.run limit ev ops i m) := by
  have hop := hπ.operand hcode
  cases k.shape ops with
  | misused htakes =>
    rw [Keyword.run_of_not_takes htakes]
    exact .lift h (by simp)
  | quote => exact .pure h (hπ.quote hcode)
  | @cond test yes no hno =>
    have hop := hop (by simp) (by simp)
    rw [Keyword.run, runCond_eq hno]
    refine (hev h (hop test (by simp)) hi).bind fun v m₁ _ h₁ _ => ?_
    split
    · exact hev h₁ (hop yes (by simp)) hi
    · split
      · exact .pure h₁ .noValue
      · exact hev h₁ (hop _ (by simp)) hi
  | @assign x form =>
    have hop := hop (by simp) (by simp)
    refine (hev h (hop form (by simp)) hi).bind fun v m₁ _ h₁ hv => ?_
    have hassign : Derives π (fun _ => True) (Scope.assign i x v m₁) := by
      refine ⟨?_, fun _ _ => trivial⟩
      rw [Scope.assign_apply]
      split
      · exact h₁.bind (hπ.symbol (hop _ (by simp))) hv
      · exact h₁
    exact hassign.bind fun _ m₂ _ h₂ _ => .pure h₂ .noValue
  | @define x form =>
    have hop := hop (by simp) (by simp)
    refine (hev h (hop form (by simp)) hi).bind fun v m₁ _ h₁ hv => ?_
    have hdefine : Derives π (fun _ => True) (Scope.define i x v m₁) :=
      ⟨h₁.bind (hπ.symbol (hop _ (by simp))) hv, fun _ _ => trivial⟩
    exact hdefine.bind fun _ m₂ _ h₂ _ => .pure h₂ .noValue
  | badTarget hk ht =>
    rw [run_of_badTarget hk ht]
    exact .faultShowing _ _ _ h
  | lambda =>
    rw [Keyword.run, Keyword.runLambda_symbols]
    -- The only place where a closure is made.
    refine (Derives.report _ _ h).bind fun _ m₁ _ h₁ _ => ⟨h₁.addObject, fun v hv => ?_⟩
    cases hv
    exact .closure (hπ.lambda hcode hi)
  | badParameters hparams =>
    rw [Keyword.run, runLambda_of_bad hparams]
    exact .faultShowing _ _ _ h
  | begin => exact evalLast_derives hev hi h .noValue (hop (by simp) (by simp))

/-- The body of a closure may be evaluated in the frame of a call. -/
theorem Store.From.makeFor (hπ : π.Closed) {id : ObjectId} {formals args : List Value} {body : Value}
    {captured j : FrameId} {m₁ : Machine} (h : m.store.From π)
    (hv : (Value.closure id formals body captured).From π) (hargs : ∀ a ∈ args, a.From π)
    (hmake : Scope.makeFor limit formals args captured m = (.value j, m₁)) :
    m₁.store.From π ∧ π.code body ∧ π.frame j := by
  obtain ⟨names, rfl, rfl, rfl⟩ := Scope.makeFor_eq_value hmake
  cases hv with
  | closure hclosure =>
    have hnames : ∀ x ∈ names, π.symbol x := fun _ => hπ.parameter hclosure
    exact ⟨h.callFrame hnames hargs (hπ.captured hclosure), hπ.body hclosure, h.next 0⟩

theorem apply_derives (hπ : π.Closed) (hev : Evaluator.Derives π ev) {v : Value} {args : List Value}
    (h : m.store.From π) (hv : v.From π) (hargs : ∀ a ∈ args, a.From π) :
    Derives π (Value.From π) (apply limit ev v args m) := by
  cases v with
  | primitive p home =>
    refine .bind (Q := fun _ => True) ⟨h.addObject, fun _ _ => trivial⟩ fun id m₁ _ h₁ _ => ?_
    exact .lift h₁ fun w hw => Primitive.call_from hw hargs
  | closure id formals body captured =>
    have hframe : Derives π (fun _ => True) (Scope.makeFor limit formals args captured m) := by
      refine ⟨?_, fun _ _ => trivial⟩
      rcases Scope.makeFor_cases limit formals args captured m with ⟨_, -, hmake⟩ | ⟨o, hmake, -⟩
      · have hstore := (h.makeFor hπ hv hargs hmake).1
        rwa [hmake]
      · rwa [hmake]
    refine hframe.bind fun j m₁ hmake h₁ _ => ?_
    obtain ⟨-, hbody, hj⟩ := h.makeFor hπ hv hargs hmake
    exact (Derives.report _ _ h₁).bind fun _ m₂ _ h₂ _ => hev h₂ hbody hj
  | _ => exact .faultShowing _ _ _ h

theorem evalStep_derives (hπ : π.Closed) {deeper : Nat → Evaluator}
    (hdeep : ∀ k, Evaluator.Derives π (deeper k)) : Evaluator.Derives π (evalStep limit deeper) := by
  intro form i m h hcode hi
  cases form with
  | symbol x =>
    rw [evalStep, Scope.lookup_apply]
    refine ⟨h, fun v hv => ?_⟩
    cases hlookup : m.store.lookup? i x with
    | none =>
      rw [hlookup] at hv
      cases hv
    | some w =>
      rw [hlookup] at hv
      cases hv
      exact h.lookup? hi hlookup
  | list id items =>
    cases items with
    | nil => exact .faultShowing _ _ _ h
    | cons head ops =>
      simp only [evalStep]
      cases hk : head.keyword? with
      | some k =>
        obtain rfl := Value.keyword?_eq_some_iff.1 hk
        exact (Derives.report _ _ h).bind fun _ m₁ _ h₁ _ => k.run_derives hπ (hdeep 1) h₁ hcode hi
      | none =>
        obtain ⟨hhead, hops⟩ := List.forall_mem_cons.1 (hπ.item hcode hk)
        refine (hdeep 1 h hhead hi).bind fun v m₁ _ h₁ hv => ?_
        refine (evalAll_derives (hdeep 1) hi h₁ hops).bind fun args m₂ _ h₂ hargs => ?_
        exact apply_derives hπ (hdeep 2) h₂ hv hargs
  | _ => exact .pure h (hπ.atom hcode rfl)

/-- Evaluation keeps to the provenance. -/
theorem eval_derives (hπ : π.Closed) (limit : Nat) : Evaluator.Derives π (eval limit) := by
  induction limit using Nat.strongRecOn with
  | ind limit ih =>
    cases limit with
    | zero =>
      intro form i m h _ _
      rw [eval]
      exact .lift h (by simp)
    | succ limit =>
      rw [eval]
      exact evalStep_derives hπ fun k => ih (limit - k) (by omega)

end Evaluation

/-! ## Sources -/

/-- The source task comes to read the form and to evaluate it. -/
def Task.Reads (t : Task) (m : Machine) (form : Value) : Prop :=
  ∃ limit i m₁, Starts (t, m) (.form limit form i, m₁)

section Sources

variable {limit : Nat} {i : FrameId} {m : Machine}

/-- Forms that are evaluated one after the other need to be code only when their turn comes. -/
theorem evalForms_derives (hπ : π.Closed) (hi : π.frame i) {last : Value} {forms : List Value}
    (h : m.store.From π) (hlast : last.From π)
    (hforms : ∀ before form after v m₁ m₂, forms = before ++ form :: after →
      evalForms limit i last before m = (.value v, m₁) →
      Run.report limit (.readForm form) m₁ = (.value (), m₂) → π.code form) :
    Derives π (Value.From π) (evalForms limit i last forms m) := by
  induction forms generalizing m last with
  | nil => exact .pure h hlast
  | cons form forms ih =>
    refine (Derives.report _ _ h).bind fun _ m₁ hreport h₁ _ => ?_
    have hform : π.code form := hforms [] form forms last m m₁ rfl rfl hreport
    refine ((eval_derives hπ limit h₁ hform hi).guard _).bind fun v m₂ hv h₂ hfrom => ?_
    -- A split of the later forms is one of all forms, with this form evaluated before.
    apply ih h₂ hfrom
    rintro before next after w m₃ m₄ rfl hbefore
    apply hforms (form :: before) next after w m₃ m₄ rfl
    rw [evalForms, Run.bind_of_value _ hreport]
    exact (Run.bind_of_value _ hv).trans hbefore

/-- Evaluating a source keeps to the provenance if the forms that are read may be evaluated. -/
theorem evalSource_derives (hπ : π.Closed) (hi : π.frame i) {text : String} (h : m.store.From π)
    (hread : ∀ form, (Task.source limit text i).Reads m form → π.code form) :
    Derives π (Value.From π) (evalSource limit text i m) := by
  have hforms : Derives π (Value.From π)
      (evalForms limit i .noValue (readForms limit text).forms m) := by
    refine evalForms_derives hπ hi h .noValue ?_
    intro before form after v m₁ m₂ hsplit hbefore hreport
    exact hread form ⟨_, _, _, .read hsplit hbefore hreport⟩
  refine hforms.bind fun v m₁ _ h₁ hv => ?_
  cases (readForms limit text).failure with
  | none => exact .pure h₁ hv
  | some f => exact .lift h₁ (by simp)

theorem parseFirst_derives {text : String} (h : m.store.From π) :
    Derives π (fun _ => True) (parseFirst limit text m) := by
  refine .bind (Q := fun _ => True) (.lift h fun _ _ => trivial) fun form m₁ _ h₁ _ => ?_
  exact (Derives.report _ _ h₁).bind fun _ m₂ _ h₂ _ => .pure h₂ trivial

/-- The same for the first form of a source. -/
theorem evalFirst_derives (hπ : π.Closed) (hi : π.frame i) {text : String} (h : m.store.From π)
    (hread : ∀ form, (Task.first limit text i).Reads m form → π.code form) :
    Derives π (Value.From π) (evalFirst limit text i m) := by
  refine (parseFirst_derives h).bind fun form m₁ hparse h₁ _ => ?_
  have hform : π.code form := hread form ⟨_, _, _, .readFirst hparse⟩
  exact (eval_derives hπ limit h₁ hform hi).guard _

end Sources

/-! ## Tasks -/

/-- The task keeps to the provenance, on its machine: it evaluates what may be evaluated, and applies
and passes permitted values. -/
def Task.From (π : Provenance) (m : Machine) : Task → Prop
  | .source limit text i =>
    (∀ form, (Task.source limit text i).Reads m form → π.code form) ∧ π.frame i
  | .first limit text i =>
    (∀ form, (Task.first limit text i).Reads m form → π.code form) ∧ π.frame i
  | .form _ e i => π.code e ∧ π.frame i
  | .rule _ k ops i => (∃ id, π.code (.list id (.symbol k.name :: ops))) ∧ π.frame i
  | .call _ v args => v.From π ∧ ∀ a ∈ args, a.From π

theorem Derives.of_eq {α : Type} {Q : α → Prop} {r : Outcome α × Machine} {a : α} {m : Machine}
    (h : Derives π Q r) (hr : r = (.value a, m)) : m.store.From π ∧ Q a := by
  subst hr
  exact ⟨h.store, h.value a rfl⟩

/-- What a task starts keeps to the provenance if the task does. -/
theorem Starts.from (hπ : π.Closed) {t t' : Task} {m m' : Machine} (hstarts : Starts (t, m) (t', m'))
    (h : m.store.From π) (ht : t.From π m) : m'.store.From π ∧ t'.From π m' := by
  cases hstarts with
  | @read limit text i before after form v _ m₁ _ hsplit hbefore hreport =>
    obtain ⟨hread, hi⟩ := ht
    -- The forms before were read by the same task, so they were code too.
    have hforms : Derives π (Value.From π) (evalForms limit i .noValue before m) := by
      refine evalForms_derives hπ hi h .noValue ?_
      rintro before' form' after' v' m₁' m₂' rfl hbefore' hreport'
      have hsplit' : (readForms limit text).forms = before' ++ form' :: (after' ++ form :: after) := by
        rw [hsplit, List.append_assoc, List.cons_append]
      exact hread form' ⟨_, _, _, .read hsplit' hbefore' hreport'⟩
    have hform : π.code form := hread form ⟨_, _, _, .read hsplit hbefore hreport⟩
    obtain ⟨h₁, -⟩ := hforms.of_eq hbefore
    exact ⟨((Derives.report _ _ h₁).of_eq hreport).1, hform, hi⟩
  | readFirst hparse =>
    obtain ⟨hread, hi⟩ := ht
    have hform := hread _ ⟨_, _, _, .readFirst hparse⟩
    exact ⟨((parseFirst_derives h).of_eq hparse).1, hform, hi⟩
  | special hk hreport =>
    obtain ⟨hcode, hi⟩ := ht
    obtain rfl := Value.keyword?_eq_some_iff.1 hk
    exact ⟨((Derives.report _ _ h).of_eq hreport).1, ⟨_, hcode⟩, hi⟩
  | @item limit id head ops before after vs form i _ _ hk hsplit hbefore =>
    obtain ⟨hcode, hi⟩ := ht
    have hitem : ∀ e ∈ before ++ form :: after, π.code e :=
      fun e he => hπ.item hcode hk e (hsplit ▸ he)
    have hvalues := evalAll_derives (eval_derives hπ (limit - 1)) hi h
      fun form hform => hitem form (List.mem_append_left _ hform)
    exact ⟨(hvalues.of_eq hbefore).1, hitem form (by simp), hi⟩
  | @call limit id head v ops args i _ _ hk hall =>
    obtain ⟨hcode, hi⟩ := ht
    have hvalues := evalAll_derives (eval_derives hπ (limit - 1)) hi h (hπ.item hcode hk)
    obtain ⟨h₁, hfrom⟩ := hvalues.of_eq hall
    exact ⟨h₁, List.forall_mem_cons.1 hfrom⟩
  | test hno =>
    obtain ⟨⟨id, hcode⟩, hi⟩ := ht
    exact ⟨h, hπ.operand hcode (by simp) (by simp) _ (by simp), hi⟩
  | yes hno hv hholds =>
    obtain ⟨⟨id, hcode⟩, hi⟩ := ht
    have hop := hπ.operand hcode (by simp) (by simp)
    exact ⟨((eval_derives hπ _ h (hop _ (by simp)) hi).of_eq hv).1, hop _ (by simp), hi⟩
  | no hv hfails =>
    obtain ⟨⟨id, hcode⟩, hi⟩ := ht
    have hop := hπ.operand hcode (by simp) (by simp)
    exact ⟨((eval_derives hπ _ h (hop _ (by simp)) hi).of_eq hv).1, hop _ (by simp), hi⟩
  | bound hk =>
    obtain ⟨⟨id, hcode⟩, hi⟩ := ht
    have hop := hπ.operand hcode (by rcases hk with rfl | rfl <;> simp)
      (by rcases hk with rfl | rfl <;> simp)
    exact ⟨h, hop _ (by simp), hi⟩
  | @begin limit before after form v i _ m₁ hbefore =>
    obtain ⟨⟨id, hcode⟩, hi⟩ := ht
    have hop := hπ.operand hcode (by simp) (by simp)
    have hlast := evalLast_derives (eval_derives hπ limit) hi h .noValue
      fun form hform => hop form (List.mem_append_left _ hform)
    exact ⟨(hlast.of_eq hbefore).1, hop form (by simp), hi⟩
  | body hmake hreport =>
    obtain ⟨hv, hargs⟩ := ht
    obtain ⟨h₁, hbody, hj⟩ := h.makeFor hπ hv hargs hmake
    exact ⟨((Derives.report _ _ h₁).of_eq hreport).1, hbody, hj⟩

/-- All tasks of a tree keep to the provenance if the first one does. -/
theorem Task.From.of_chain (hπ : π.Closed) {t : Task × Machine} {t' : Task × Machine}
    (hchain : Relation.ReflTransGen Starts t t') (h : t.2.store.From π) (ht : t.1.From π t.2) :
    t'.2.store.From π ∧ t'.1.From π t'.2 := by
  induction hchain with
  | refl => exact ⟨h, ht⟩
  | tail _ hstarts ih => exact Starts.from hπ hstarts ih.1 ih.2

/-! ## Sessions -/

/-- What a source task reads is one of the forms of its source. -/
theorem Task.Reads.mem {limit : Nat} {text : String} {i : FrameId} {m : Machine} {form : Value}
    (h : (Task.source limit text i).Reads m form) : form ∈ (readForms limit text).forms := by
  obtain ⟨_, _, _, hstarts⟩ := h
  cases hstarts with
  | read hsplit _ _ =>
    rw [hsplit]
    simp

/-- A new global frame binds primitives to their names. -/
theorem Store.From.withStandard {m : Machine} (hframe : ∀ i, π.frame i ↔ m.store.frames.size ≤ i)
    (hname : ∀ p : Primitive, π.symbol p.name) : m.withStandard.store.From π where
  bindings := by
    intro g f hg hf p hp
    rw [m.frame?_withStandard] at hf
    split at hf
    · cases hf
      obtain ⟨q, -, rfl⟩ := List.mem_map.1 hp
      exact ⟨hname q, .primitive⟩
    · exact absurd (Store.lt_size_of_frame? hf) (Nat.not_lt.2 ((hframe g).1 hg))
  outer := by
    intro g f o hg hf ho
    rw [m.frame?_withStandard] at hf
    split at hf
    · cases hf
      cases ho
    · exact absurd (Store.lt_size_of_frame? hf) (Nat.not_lt.2 ((hframe g).1 hg))
  next k := by
    rw [m.size_withStandard]
    exact (hframe _).2 (by omega)

/-- A session that has started keeps to a provenance to which its prelude belongs. -/
theorem Session.start_from (hπ : π.Closed) {limit : Nat} {host : Host} {prelude : Prelude} {s : Session}
    {m m' : Machine} (hframe : ∀ i, π.frame i ↔ m.store.frames.size ≤ i)
    (hname : ∀ p : Primitive, π.symbol p.name)
    (hprelude : ∀ code, prelude.text? host = some code →
      ∀ form ∈ (readForms limit code).forms, π.code form)
    (h : Session.start limit host prelude m = (.value s, m')) :
    π.frame s.global ∧ m'.store.From π := by
  obtain ⟨hglobal, ⟨-, rfl⟩ | ⟨code, m₁, v, htext, hannounced, heval⟩⟩ := Session.start_cases h
  · exact ⟨(hframe _).2 (Nat.le_of_eq hglobal.symm), .withStandard hframe hname⟩
  · have hs : π.frame s.global := (hframe _).2 (Nat.le_of_eq hglobal.symm)
    have h₁ : m₁.store.From π := by
      rcases hannounced with rfl | ⟨path, hreport⟩
      · exact .withStandard hframe hname
      · exact ((Derives.report _ _ (.withStandard hframe hname)).of_eq hreport).1
    have hderives : Derives π (Value.From π) (s.eval limit code m₁) :=
      evalSource_derives hπ hs h₁ fun form hread => hprelude code htext form hread.mem
    exact ⟨hs, (hderives.of_eq heval).1⟩

end Lisplet
