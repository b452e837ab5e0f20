import Lisplet.Proofs.Conditions
import Lisplet.Proofs.Isolation

/-!
# Bindings that play no part

Evaluation looks a name up only where the name is referred to: where it stands as a form. Quoted data is
not looked at, and the keyword at the head of a special form is told by its spelling before anything is
looked up. So a name that is referred to nowhere can be bound to anything, in any frame, or not at all. In
particular special forms cannot be redefined.

The statement is about two runs of one form, in stores that agree on all other names. It is carried through
the runs together with the condition that no code refers to the name, which is a provenance.

Main definitions: `Value.refersTo`, `Store.AgreesExcept`, `Run.Ignores`. Main statements: `eval_ignores`,
`evaluate_ignores`.
-/

namespace Lisplet

/-! ## References to names -/

mutual

/-- Whether a form refers to a name: the name occurs in it, outside quoted data, and elsewhere than as a
keyword at the head of a list. -/
def Value.refersTo (x : String) : Value → Bool
  | .symbol y => y == x
  | .list _ (head :: ops) =>
    match head.keyword? with
    | some .quote => false
    | some _ => refersToAny x ops
    | none => head.refersTo x || refersToAny x ops
  | _ => false

/-- Whether one of several forms refers to a name. -/
def refersToAny (x : String) : List Value → Bool
  | [] => false
  | v :: vs => v.refersTo x || refersToAny x vs

end

theorem refersToAny_eq_false_iff {x : String} {vs : List Value} :
    refersToAny x vs = false ↔ ∀ v ∈ vs, v.refersTo x = false := by
  induction vs with
  | nil => simp [refersToAny]
  | cons v vs ih => simp [refersToAny, ih]

/-- What is evaluated for a form that does not refer to a name does not refer to it. -/
theorem hereditary_refersTo (x : String) : Hereditary fun v => v.refersTo x = false where
  item {id head ops} h hk := by
    simp only [Value.refersTo, hk, Bool.or_eq_false_iff, refersToAny_eq_false_iff] at h
    exact List.forall_mem_cons.2 h
  operand {id k ops} h hquote := by
    have hk : (Value.symbol k.name).keyword? = some k := k.ofName?_name
    cases k with
    | quote => exact absurd rfl hquote
    | _ => simpa only [Value.refersTo, hk, refersToAny_eq_false_iff] using h
  begin {forms} h := by
    have hk : (Value.symbol Keyword.begin.name).keyword? = some .begin := rfl
    simpa only [Value.refersTo, hk, refersToAny_eq_false_iff] using h

/-! ## Stores that agree but for one name -/

namespace Store

variable {s s' : Store} {x y z : String} {i g : FrameId} {v : Value}

/-- Binding a name changes no outer frame. -/
theorem outer_bind (s : Store) (i : FrameId) (y : String) (v : Value) (g : FrameId) :
    ((s.bind i y v).frame? g).map (·.outer) = (s.frame? g).map (·.outer) := by
  rw [frame?_bind]
  cases s.frame? g with
  | none => rfl
  | some f =>
    simp only [Option.map_some]
    split <;> rfl

/-- The stores have the same frames inside the same outer frames, have given away as many identities, and
bind all names but one alike. -/
structure AgreesExcept (x : String) (s s' : Store) : Prop where
  outer : ∀ g, (s.frame? g).map (·.outer) = (s'.frame? g).map (·.outer)
  values : ∀ g y, y ≠ x → s.get? g y = s'.get? g y
  objects : s.objects = s'.objects

namespace AgreesExcept

/-- A frame is in both stores, inside the same outer frame, or in none. -/
theorem frame?_cases (h : s.AgreesExcept x s') (g : FrameId) :
    (s.frame? g = none ∧ s'.frame? g = none) ∨
      ∃ f f', s.frame? g = some f ∧ s'.frame? g = some f' ∧ f.outer = f'.outer := by
  have houter := h.outer g
  cases hf : s.frame? g with
  | none =>
    rw [hf] at houter
    exact Or.inl ⟨rfl, Option.map_eq_none_iff.1 houter.symm⟩
  | some f =>
    rw [hf] at houter
    obtain ⟨f', hf', ho⟩ := Option.map_eq_some_iff.1 houter.symm
    exact Or.inr ⟨f, f', rfl, hf', ho.symm⟩

theorem size_eq (h : s.AgreesExcept x s') : s.frames.size = s'.frames.size := by
  have hnone : ∀ g, s.frame? g = none ↔ s'.frame? g = none := by
    intro g
    rcases h.frame?_cases g with ⟨hf, hf'⟩ | ⟨f, f', hf, hf', -⟩ <;> simp [hf, hf']
  have hle : ∀ g, s.frames.size ≤ g ↔ s'.frames.size ≤ g := by
    intro g
    rw [← Array.getElem?_eq_none_iff, ← Array.getElem?_eq_none_iff]
    exact hnone g
  exact Nat.le_antisymm ((hle _).2 (Nat.le_refl _)) ((hle _).1 (Nat.le_refl _))

theorem chain_eq (h : s.AgreesExcept x s') (i : FrameId) : s.chain i = s'.chain i := by
  induction i using Nat.strongRecOn with
  | ind i ih =>
    rw [Store.chain, Store.chain]
    rcases h.frame?_cases i with ⟨hf, hf'⟩ | ⟨f, f', hf, hf', ho⟩
    · rw [hf, hf']
    · rw [hf, hf']
      dsimp only
      rw [ho]
      cases f'.outer with
      | none => rfl
      | some o =>
        dsimp only
        split
        · next hlt => rw [ih o hlt]
        · rfl

/-- The owner of another name is the same. -/
theorem find?_eq (h : s.AgreesExcept x s') (hy : y ≠ x) (i : FrameId) : s.find? i y = s'.find? i y := by
  have hbinds : (fun j => (s.bindings j).binds y) = fun j => (s'.bindings j).binds y :=
    funext fun j => congrArg Option.isSome (h.values j y hy)
  rw [find?, find?, h.chain_eq, hbinds]

theorem lookup?_eq (h : s.AgreesExcept x s') (hy : y ≠ x) (i : FrameId) :
    s.lookup? i y = s'.lookup? i y := by
  rw [lookup?, lookup?, h.find?_eq hy]
  exact congrArg (Option.bind _) (funext fun j => h.values j y hy)

/-- Binding one name in both stores. -/
theorem bind (h : s.AgreesExcept x s') (i : FrameId) (y : String) (v : Value) :
    (s.bind i y v).AgreesExcept x (s'.bind i y v) where
  outer g := by rw [outer_bind, outer_bind, h.outer]
  values g z hz := by
    rw [get?_bind, get?_bind, h.values g z hz]
    -- The frame has to be there for the name to be bound in it, but it is there in both.
    rcases h.frame?_cases g with ⟨hf, hf'⟩ | ⟨f, f', hf, hf', -⟩
    · rw [hf, hf']
    · rw [hf, hf', Option.map_some, Option.map_some]
  objects := h.objects

/-- Adding one frame to both stores. -/
theorem addFrame (h : s.AgreesExcept x s') (b : Bindings) (outer : Option FrameId) :
    (s.addFrame b outer).2.AgreesExcept x (s'.addFrame b outer).2 where
  outer g := by
    rw [frame?_addFrame, frame?_addFrame, ← h.size_eq]
    split
    · rfl
    · exact h.outer g
  values g z hz := by
    rw [get?_addFrame, get?_addFrame, ← h.size_eq, h.values g z hz]
  objects := h.objects

theorem addObject (h : s.AgreesExcept x s') : s.addObject.2.AgreesExcept x s'.addObject.2 where
  outer := h.outer
  values := h.values
  objects := congrArg (· + 1) h.objects

/-- Letting both stores go on with the same identity. -/
theorem renumber (h : s.AgreesExcept x s') (k : Nat) :
    { s with objects := k }.AgreesExcept x { s' with objects := k } :=
  ⟨h.outer, h.values, rfl⟩

/-- Whatever the name is bound to somewhere, no other binding is changed by that. -/
theorem bind_self (s : Store) (g : FrameId) (x : String) (v : Value) :
    s.AgreesExcept x (s.bind g x v) where
  outer j := (outer_bind s g x v j).symm
  values j y hy := by
    rw [get?_bind, if_neg fun h => hy h.2.symm]
  objects := rfl

end AgreesExcept

/-- Identities may be left out. -/
theorem Regular.renumber (h : s.Regular) {k : Nat} (hk : s.objects ≤ k) :
    { s with objects := k }.Regular where
  outer_lt := h.outer_lt
  within := h.within
  issued hf hp id hid := Nat.lt_of_lt_of_le (h.issued hf hp id hid) hk

end Store

/-! ## Runs that ignore a name -/

/-- Stores that agree on all names but one, and bind these to values that are permitted. -/
structure Store.SameBut (x : String) (π : Provenance) (s s' : Store) : Prop extends
    s.AgreesExcept x s' where
  permitted : ∀ g y v, y ≠ x → s.get? g y = some v → v.From π

/-- Two runs have the same outcome, with a value as it should be, and leave stores that agree. -/
structure EndsAlike {α : Type} (x : String) (π : Provenance) (Q : α → Prop)
    (r r' : Outcome α × Machine) : Prop where
  outcome : r.1 = r'.1
  value : ∀ a, r.1 = .value a → Q a
  store : r.2.store.SameBut x π r'.2.store

/-- On machines whose stores agree on all names but one, the run ends alike. -/
def Run.Ignores {α : Type} (x : String) (π : Provenance) (Q : α → Prop) (run : Run α) : Prop :=
  ∀ m m' : Machine, m.store.SameBut x π m'.store → EndsAlike x π Q (run m) (run m')

variable {x : String} {π : Provenance}

namespace Store.SameBut

variable {s s' : Store} {y : String} {v : Value}

theorem lookup? (h : s.SameBut x π s') (hy : y ≠ x) {i : FrameId} (hv : s.lookup? i y = some v) :
    v.From π := by
  obtain ⟨j, -, hget⟩ := Option.bind_eq_some_iff.1 hv
  exact h.permitted j y v hy hget

theorem bind (h : s.SameBut x π s') (hv : v.From π) (i : FrameId) (y : String) :
    (s.bind i y v).SameBut x π (s'.bind i y v) where
  toAgreesExcept := h.toAgreesExcept.bind i y v
  permitted g z w hz hw := by
    rw [get?_bind] at hw
    split at hw
    · obtain ⟨_, -, rfl⟩ := Option.map_eq_some_iff.1 hw
      exact hv
    · exact h.permitted g z w hz hw

theorem addFrame (h : s.SameBut x π s') {b : Bindings} (hb : ∀ p ∈ b, p.2.From π)
    (outer : Option FrameId) : (s.addFrame b outer).2.SameBut x π (s'.addFrame b outer).2 where
  toAgreesExcept := h.toAgreesExcept.addFrame b outer
  permitted g z w hz hw := by
    rw [get?_addFrame] at hw
    split at hw
    · exact hb _ (Bindings.mem_of_get? hw)
    · exact h.permitted g z w hz hw

theorem addObject (h : s.SameBut x π s') : s.addObject.2.SameBut x π s'.addObject.2 :=
  ⟨h.toAgreesExcept.addObject, h.permitted⟩

end Store.SameBut

namespace Run.Ignores

variable {α β : Type} {Q : α → Prop} {R : β → Prop} {run : Run α} {f : α → Run β}

theorem lift {o : Outcome α} (hQ : ∀ a, o = .value a → Q a) : (Run.lift o).Ignores x π Q :=
  fun _ _ h => ⟨rfl, hQ, h⟩

protected theorem pure {a : α} (ha : Q a) : (pure a : Run α).Ignores x π Q := by
  apply Run.Ignores.lift
  intro b hb
  cases hb
  exact ha

protected theorem fault (e : Fault) : (Run.fault e : Run α).Ignores x π Q :=
  lift (by simp)

theorem query {g : Store → α} (hg : ∀ s s' : Store, s.SameBut x π s' → g s = g s' ∧ Q (g s)) :
    (Run.query g).Ignores x π Q := by
  intro m m' h
  obtain ⟨heq, hQ⟩ := hg _ _ h
  rw [Run.query_apply, Run.query_apply, heq]
  refine ⟨rfl, fun a ha => ?_, h⟩
  cases ha
  exact heq ▸ hQ

theorem update {g : Store → α × Store} (hg : ∀ s s' : Store, s.SameBut x π s' →
    (g s).1 = (g s').1 ∧ Q (g s).1 ∧ (g s).2.SameBut x π (g s').2) : (Run.update g).Ignores x π Q := by
  intro m m' h
  obtain ⟨heq, hQ, hstore⟩ := hg _ _ h
  rw [Run.update_apply, Run.update_apply, heq]
  refine ⟨rfl, fun a ha => ?_, hstore⟩
  cases ha
  exact heq ▸ hQ

/-- A report whose message can be worked out touches no store. -/
theorem report {limit : Nat} {e : Event} {text : String} (h : e.message limit = .value text) :
    (Run.report limit e).Ignores x π fun _ => True := by
  intro m m' hsame
  obtain ⟨log, hm⟩ := Run.report_of_message h m
  obtain ⟨log', hm'⟩ := Run.report_of_message h m'
  rw [hm, hm']
  exact ⟨rfl, fun _ _ => trivial, hsame⟩

protected theorem bind (hrun : run.Ignores x π Q) (hf : ∀ a, Q a → (f a).Ignores x π R) :
    (run >>= f).Ignores x π R := by
  intro m m' h
  obtain ⟨ho, hQ, h₁⟩ := hrun m m' h
  rcases hm : run m with ⟨o, m₁⟩
  rcases hm' : run m' with ⟨o', m₁'⟩
  rw [hm, hm'] at ho h₁
  rw [hm] at hQ
  dsimp only at ho h₁ hQ
  subst ho
  cases o with
  | value a =>
    rw [Run.bind_of_value f hm, Run.bind_of_value f hm']
    exact hf a (hQ a rfl) m₁ m₁' h₁
  | fault e =>
    rw [Run.bind_of_fault f hm, Run.bind_of_fault f hm']
    exact ⟨rfl, by simp, h₁⟩
  | exhausted =>
    rw [Run.bind_of_exhausted f hm, Run.bind_of_exhausted f hm']
    exact ⟨rfl, by simp, h₁⟩

theorem faultShowing (limit : Nat) (v : Value) (make : String → Fault) :
    (Run.faultShowing limit v make : Run α).Ignores x π Q :=
  (lift (Q := fun _ => True) fun _ _ => trivial).bind fun _ _ => .fault _

theorem guard (activity : Activity) (hrun : run.Ignores x π Q) :
    (run.guard activity).Ignores x π Q := by
  intro m m' h
  obtain ⟨ho, hQ, h₁⟩ := hrun m m' h
  refine ⟨?_, fun a ha => hQ a ?_, h₁⟩
  · show Outcome.ofExcept ((run m).1.toExcept activity) = Outcome.ofExcept ((run m').1.toExcept activity)
    rw [ho]
  · revert ha
    show Outcome.ofExcept ((run m).1.toExcept activity) = .value a → _
    cases (run m).1 with
    | value b => exact id
    | fault e => exact id
    | exhausted => intro ha; cases ha

end Run.Ignores

/-! ## Evaluation -/

/-- A provenance that evaluation does not lead out of, in all frames, and in which a name is not code. -/
structure Provenance.Shuns (π : Provenance) (x : String) : Prop extends π.Closed where
  anywhere : ∀ i, π.frame i
  no_reference : ¬ π.code (.symbol x)

/-- Evaluating permitted forms ignores the name. -/
def Evaluator.Ignores (x : String) (π : Provenance) (ev : Evaluator) : Prop :=
  ∀ form i, π.code form → (ev form i).Ignores x π (Value.From π)

section Evaluation

variable {limit : Nat} {ev : Evaluator} {i : FrameId}

theorem Provenance.Shuns.ne_of_code (hπ : π.Shuns x) {y : String} (h : π.code (.symbol y)) : y ≠ x := by
  rintro rfl
  exact hπ.no_reference h

theorem evalAll_ignores (hev : Evaluator.Ignores x π ev) {forms : List Value}
    (h : ∀ form ∈ forms, π.code form) :
    (evalAll ev i forms).Ignores x π fun vs => ∀ v ∈ vs, v.From π := by
  induction forms with
  | nil => exact .pure (by simp)
  | cons form forms ih =>
    obtain ⟨hform, hforms⟩ := List.forall_mem_cons.1 h
    refine (hev form i hform).bind fun v hv => (ih hforms).bind fun vs hvs => ?_
    exact .pure (List.forall_mem_cons.2 ⟨hv, hvs⟩)

theorem evalLast_ignores (hev : Evaluator.Ignores x π ev) {last : Value} (hlast : last.From π)
    {forms : List Value} (h : ∀ form ∈ forms, π.code form) :
    (evalLast ev i last forms).Ignores x π (Value.From π) := by
  induction forms generalizing last with
  | nil => exact .pure hlast
  | cons form forms ih =>
    obtain ⟨hform, hforms⟩ := List.forall_mem_cons.1 h
    exact (hev form i hform).bind fun v hv => ih hv hforms

/-- Looking up another name. -/
theorem Scope.lookup_ignores {y : String} (hy : y ≠ x) :
    (Scope.lookup i y).Ignores x π (Value.From π) := by
  refine .bind (Q := fun found => ∀ v, found = some v → v.From π) (.query fun s s' h => ?_) ?_
  · exact ⟨h.lookup?_eq hy i, fun v hv => h.lookup? hy hv⟩
  · intro found hfound
    cases found with
    | some v => exact .pure (hfound v rfl)
    | none => exact .fault _

/-- Binding any name. -/
theorem Scope.define_ignores {v : Value} (hv : v.From π) (y : String) :
    (Scope.define i y v).Ignores x π fun _ => True :=
  .update fun _ _ h => ⟨rfl, trivial, h.bind hv i y⟩

/-- Assigning to another name: its owner is the same. -/
theorem Scope.assign_ignores {y : String} (hy : y ≠ x) {v : Value} (hv : v.From π) :
    (Scope.assign i y v).Ignores x π fun _ => True := by
  refine .bind (Q := fun _ => True) (.query fun s s' h => ⟨h.find?_eq hy i, trivial⟩) ?_
  intro found _
  cases found with
  | some j => exact Scope.define_ignores hv y
  | none => exact .fault _

theorem Keyword.run_ignores (hπ : π.Shuns x) (hev : Evaluator.Ignores x π ev) {k : Keyword}
    {ops : List Value} {id : Option ObjectId} (hcode : π.code (.list id (.symbol k.name :: ops))) :
    (k.run limit ev ops i).Ignores x π (Value.From π) := by
  have hop := hπ.operand hcode
  cases k.shape ops with
  | misused htakes =>
    rw [Keyword.run_of_not_takes htakes]
    exact .fault _
  | quote => exact .pure (hπ.quote hcode)
  | @cond test yes no hno =>
    have hop := hop (by simp) (by simp)
    rw [Keyword.run, runCond_eq hno]
    refine (hev test i (hop test (by simp))).bind fun v _ => ?_
    split
    · exact hev yes i (hop yes (by simp))
    · split
      · exact .pure .noValue
      · exact hev _ i (hop _ (by simp))
  | @assign y form =>
    have hop := hop (by simp) (by simp)
    -- The target is an operand like any other, so it is not the name.
    have hy : y ≠ x := hπ.ne_of_code (hop _ (by simp))
    refine (hev form i (hop form (by simp))).bind fun v hv => ?_
    exact (Scope.assign_ignores hy hv).bind fun _ _ => .pure .noValue
  | @define y form =>
    have hop := hop (by simp) (by simp)
    refine (hev form i (hop form (by simp))).bind fun v hv => ?_
    exact (Scope.define_ignores hv y).bind fun _ _ => .pure .noValue
  | badTarget hk ht =>
    rw [run_of_badTarget hk ht]
    exact .faultShowing _ _ _
  | lambda =>
    rw [Keyword.run, Keyword.runLambda_symbols]
    refine (Run.Ignores.report rfl).bind fun _ _ => .update fun s s' h => ?_
    refine ⟨?_, .closure (hπ.lambda hcode (hπ.anywhere i)), h.addObject⟩
    -- Both stores give the closure the same identity.
    show Value.closure s.objects _ _ _ = Value.closure s'.objects _ _ _
    rw [h.objects]
  | badParameters hparams =>
    rw [Keyword.run, runLambda_of_bad hparams]
    exact .faultShowing _ _ _
  | begin => exact evalLast_ignores hev .noValue (hop (by simp) (by simp))

/-- The frame of a call, in which the name may be bound too, gets the same place in both stores. It is made
only if the parameters are symbols. -/
theorem Scope.makeFor_ignores {formals args : List Value} (hargs : ∀ a ∈ args, a.From π)
    (captured : FrameId) :
    (Scope.makeFor limit formals args captured).Ignores x π fun _ => ∃ names, formals = symbols names := by
  by_cases hlen : args.length = formals.length
  · by_cases hlist : ∃ v ∈ formals, v.isList = true
    · rw [Scope.makeFor_of_list hlen hlist]
      exact .fault _
    · rcases symbols_or_bad formals with ⟨names, rfl⟩ | ⟨names, bad, later, rfl, hbad⟩
      · rw [Scope.makeFor_symbols (by rw [hlen, length_symbols])]
        refine .update fun s s' h => ⟨h.size_eq, ⟨names, rfl⟩, h.addFrame (fun p hp => ?_) _⟩
        exact hargs _ (List.of_mem_zip (Bindings.mem_ofPairs hp)).2
      · rw [Scope.makeFor_of_bad hlen (by simpa using hlist) hbad]
        exact .faultShowing _ _ _
  · rw [Scope.makeFor_of_length_ne hlen]
    exact .fault _

theorem apply_ignores (hπ : π.Shuns x) (hev : Evaluator.Ignores x π ev) {v : Value} {args : List Value}
    (hv : v.From π) (hargs : ∀ a ∈ args, a.From π) :
    (apply limit ev v args).Ignores x π (Value.From π) := by
  cases v with
  | primitive p home =>
    refine .bind (Q := fun _ => True) (.update fun s s' h => ⟨h.objects, trivial, h.addObject⟩) ?_
    intro id _
    exact .lift fun w hw => Primitive.call_from hw hargs
  | closure id formals body captured =>
    refine (Scope.makeFor_ignores hargs captured).bind fun j hformals => ?_
    obtain ⟨names, rfl⟩ := hformals
    obtain ⟨text, hmessage⟩ := applied_message limit names args.length
    refine (Run.Ignores.report hmessage).bind fun _ _ => ?_
    cases hv with
    | closure hclosure => exact hev body j (hπ.body hclosure)
  | _ => exact .faultShowing _ _ _

theorem evalStep_ignores (hπ : π.Shuns x) {deeper : Nat → Evaluator}
    (hdeep : ∀ k, Evaluator.Ignores x π (deeper k)) : Evaluator.Ignores x π (evalStep limit deeper) := by
  intro form i hcode
  cases form with
  | symbol y => exact Scope.lookup_ignores (hπ.ne_of_code hcode)
  | list id items =>
    cases items with
    | nil => exact .faultShowing _ _ _
    | cons head ops =>
      simp only [evalStep]
      -- What kind of form this is depends on the head alone, and not on what the head is bound to.
      cases hk : head.keyword? with
      | some k =>
        obtain rfl := Value.keyword?_eq_some_iff.1 hk
        exact (Run.Ignores.report rfl).bind fun _ _ => k.run_ignores hπ (hdeep 1) hcode
      | none =>
        obtain ⟨hhead, hops⟩ := List.forall_mem_cons.1 (hπ.item hcode hk)
        refine (hdeep 1 head i hhead).bind fun procedure hprocedure => ?_
        refine (evalAll_ignores (hdeep 1) hops).bind fun args hargs => ?_
        exact apply_ignores hπ (hdeep 2) hprocedure hargs
  | _ => exact .pure (hπ.atom hcode rfl)

/-- Evaluating code that does not refer to a name ignores the name. -/
theorem eval_ignores (hπ : π.Shuns x) (limit : Nat) : Evaluator.Ignores x π (eval limit) := by
  induction limit using Nat.strongRecOn with
  | ind limit ih =>
    cases limit with
    | zero =>
      intro form i _
      rw [eval]
      exact .lift (by simp)
    | succ limit =>
      rw [eval]
      exact evalStep_ignores hπ fun k => ih (limit - k) (by omega)

end Evaluation

/-! ## Names that are not referred to -/

/-- Code that does not refer to a name, in a form and in all closures. -/
theorem Provenance.shuns_refersTo (x : String) :
    (Provenance.meeting fun v => v.refersTo x = false).Shuns x where
  toClosed := (hereditary_refersTo x).closed
  anywhere _ := trivial
  no_reference h := by simp [Provenance.meeting, Value.refersTo] at h

/-- **Bindings that are not referred to play no part.** Take two stores that agree on all names but one:
they have the same frames inside the same outer frames and have given away as many identities, and the name
may be bound, unbound or bound to something else in any frame. Let the name occur in a form, and in the
bodies of the closures that occur in the form or are bound to other names, only inside quoted data or, if it
is a keyword, at the head of a list. Then the form evaluated in the same frame has the same outcome in both,
whatever the outcome is, and the stores agree again on all names but that one. In particular it makes no
difference if the name, for instance the keyword of a special form, is bound to some value in some frame.

Nor does it matter how many identities the second store has given away. If it has given away more than the
first, and nothing in the first store or in the form refers to what is not there, then outcome and store are
as before, up to the identities of what the runs make. -/
theorem evaluate_ignores (limit : Nat) (x : String) (form : Value) (i : FrameId) (m m' : Machine)
    (hstores : m.store.AgreesExcept x m'.store) (hform : form.refersTo x = false)
    (hbodies : form.BodiesMeet fun v => v.refersTo x = false)
    (hvalues : ∀ g y v, y ≠ x → m.store.get? g y = some v → v.BodiesMeet fun v => v.refersTo x = false) :
    (evaluate limit form i m).1 = (evaluate limit form i m').1 ∧
    (evaluate limit form i m).2.store.AgreesExcept x (evaluate limit form i m').2.store ∧
    (∀ g v, (evaluate limit form i { m with store := m.store.bind g x v }).1 =
      (evaluate limit form i m).1) ∧
    (m.store.Regular → i < m.store.frames.size → form.Within m.store.frames.size →
      (∀ id ∈ form.identities, id < m.store.objects) → ∀ k, m.store.objects ≤ k →
      ∃ n : Machine,
        Simulated (.sharing m.store { m.store with objects := k } (m.store.Reachable (i :: form.captured)))
          Value.Paired m (evaluate limit form i m)
          ((evaluate limit form i ⟨{ m'.store with objects := k }, m'.log⟩).1, n) ∧
        n.store.AgreesExcept x
          (evaluate limit form i ⟨{ m'.store with objects := k }, m'.log⟩).2.store) := by
  have heval : ∀ n n' : Machine, n.store.frames = m.store.frames → n.store.AgreesExcept x n'.store →
      EndsAlike x (.meeting fun v => v.refersTo x = false)
        (Value.From (.meeting fun v => v.refersTo x = false)) (evaluate limit form i n)
        (evaluate limit form i n') := by
    intro n n' hframes hagree
    have hignores := eval_ignores (Provenance.shuns_refersTo x) limit form i ⟨hform, hbodies⟩
    refine hignores.guard .evaluating n n' ⟨hagree, fun g y v hy hv => ?_⟩
    -- What is bound does not depend on the identities that were given away.
    have hget : n.store.get? g y = m.store.get? g y := by
      simp only [Store.get?, Store.bindings, Store.frame?, hframes]
    exact Value.from_meeting v (hvalues g y v hy (hget ▸ hv))
  obtain ⟨houtcome, -, hagree⟩ := heval m m' rfl hstores
  refine ⟨houtcome, hagree.toAgreesExcept, fun g v => ?_, ?_⟩
  · exact (heval m _ rfl (.bind_self m.store g x v)).outcome.symm
  · intro hregular hi hwithin hissued k hk
    -- First the identities change and nothing else, then the bindings of the name.
    have hrenumbered := evaluate_sharing (m := m) (n := ⟨{ m.store with objects := k }, m.log⟩) limit
      hregular (hregular.renumber hk) hi hwithin
      (fun id hid => ⟨hissued id hid, Nat.lt_of_lt_of_le (hissued id hid) hk⟩) (fun _ _ => rfl) rfl
    obtain ⟨houtcome, -, hagree⟩ := heval ⟨{ m.store with objects := k }, m.log⟩
      ⟨{ m'.store with objects := k }, m'.log⟩ rfl (hstores.renumber k)
    refine ⟨_, ?_, hagree.toAgreesExcept⟩
    rw [← houtcome]
    exact hrenumbered

/-- `(if (quote (if x)) ((lambda (if y) y) 1 2) 3)`: it names `if` as data, as a parameter at the head of a
list, and twice as the keyword. -/
private def keywordForm : Value :=
  .literal [.symbol "if", .literal [.symbol "quote", .literal [.symbol "if", .symbol "x"]],
    .literal [.literal [.symbol "lambda", .literal [.symbol "if", .symbol "y"], .symbol "y"], .int 1,
      .int 2], .int 3]

/-- A frame with `x`, in which `if` is unbound. -/
private def plainMachine : Machine :=
  ⟨⟨#[⟨[("x", .int 0)], none⟩], 1⟩, Log.new .warning⟩

/-- The same frame with `if` bound to a procedure that refers to `if`. -/
private def keywordMachine : Machine :=
  { plainMachine with store := plainMachine.store.bind 0 "if" (.closure 0 [] (.symbol "if") 0) }

private theorem keywordForm_isLiteral : keywordForm.IsLiteral := by
  have hquote : (Value.literal [.symbol "quote", .literal [.symbol "if", .symbol "x"]]).IsLiteral :=
    .list (by simpa using ⟨.symbol, .list (by simpa using ⟨.symbol, .symbol⟩)⟩)
  have hlambda : (Value.literal [.symbol "lambda", .literal [.symbol "if", .symbol "y"],
      .symbol "y"]).IsLiteral :=
    .list (by simpa using ⟨.symbol, .list (by simpa using ⟨.symbol, .symbol⟩), .symbol⟩)
  exact .list (by simpa using ⟨.symbol, hquote, .list (by simpa using ⟨hlambda, .int, .int⟩), .int⟩)

private theorem plainMachine_regular : plainMachine.store.Regular := by
  -- There is one frame, with an integer in it and no frame around it.
  have hframe : ∀ {g f}, plainMachine.store.frame? g = some f → f = ⟨[("x", .int 0)], none⟩ := by
    intro g f hf
    rcases g with _ | g
    · exact (Option.some.inj hf).symm
    · cases hf
  refine ⟨⟨?_, ?_⟩, ?_⟩
  · intro g f o hf ho
    rw [hframe hf] at ho
    cases ho
  · intro g f p hf hp
    rw [hframe hf] at hp
    obtain rfl := List.mem_singleton.1 hp
    exact Value.within_iff.2 (by simp [Value.captured])
  · intro g f p hf hp id hid
    rw [hframe hf] at hp
    obtain rfl := List.mem_singleton.1 hp
    cases hid

/-- The special form is evaluated as ever, although `if` is bound, and although more identities have been
given away. -/
theorem evaluate_ignores_keyword :
    keywordForm.refersTo "if" = false ∧
    (evaluate 20 keywordForm 0 plainMachine).1 = .value (.int 2) ∧
    (evaluate 20 keywordForm 0 keywordMachine).1 = .value (.int 2) ∧
    (evaluate 20 keywordForm 0 plainMachine).2.store.AgreesExcept "if"
      (evaluate 20 keywordForm 0 keywordMachine).2.store ∧
    (evaluate 20 keywordForm 0 ⟨{ keywordMachine.store with objects := 5 }, keywordMachine.log⟩).1 =
      .value (.int 2) := by
  have hform : keywordForm.refersTo "if" = false := by decide
  have hvalues : ∀ g y v, y ≠ "if" → plainMachine.store.get? g y = some v →
      v.BodiesMeet fun v => v.refersTo "if" = false := by
    intro g y v _ hv
    rcases g with _ | g
    · have hmem : (y, v) ∈ [("x", Value.int 0)] := Bindings.mem_of_get? hv
      cases List.mem_singleton.1 hmem
      exact .of_isLiteral .int
    · cases hv
  obtain ⟨houtcome, hstores, -, hnumbers⟩ := evaluate_ignores 20 "if" keywordForm 0 plainMachine
    keywordMachine (.bind_self _ _ _ _) hform (.of_isLiteral keywordForm_isLiteral) hvalues
  have hplain : (evaluate 20 keywordForm 0 plainMachine).1 = .value (.int 2) := by
    with_unfolding_all rfl
  have hcaptured : keywordForm.captured = [] := by decide
  have hidentities : keywordForm.identities = [] := by decide
  obtain ⟨n, hsimulated, -⟩ := hnumbers plainMachine_regular (by decide)
    (Value.within_iff.2 (by simp [hcaptured])) (by simp [hidentities]) 5 (by decide)
  refine ⟨hform, hplain, houtcome.symm.trans hplain, hstores, ?_⟩
  -- An integer is paired with itself only.
  have hpaired := hsimulated.outcome
  rw [hplain] at hpaired
  generalize (evaluate 20 keywordForm 0
    ⟨{ keywordMachine.store with objects := 5 }, keywordMachine.log⟩).1 = o at hpaired ⊢
  cases hpaired with
  | value hv =>
    cases hv
    rfl

end Lisplet
