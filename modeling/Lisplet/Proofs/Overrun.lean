import Lisplet.Proofs.Operands

/-!
# Where an evaluation uses up its depth

An evaluation reaches the depth limit at one place: a form that there is no depth left for, two lists
that a primitive compares, or a value that a message has to show. That place may be far inside, in the
operand of an operand or in the body of a closure that is called there, after much has been done. The
relations of this module say where it is, and an evaluation is cut off exactly if there is such a place:
nothing on the way out takes notice of it.

Main definitions: `Overruns`, `OverrunsRule`, `OverrunsCall`. Main statement: `placesKnown`.
-/

namespace Lisplet

/-! ## The places -/

mutual

/-- Evaluating the form in the frame, from this machine, comes to a place that there is no depth left
for. -/
inductive Overruns : Nat → Value → FrameId → Machine → Prop where
  /-- The form itself is that place. -/
  | form {form : Value} {i : FrameId} {m : Machine} : Overruns 0 form i m
  /-- It is the empty list, in the message that nothing can be applied. -/
  | nothing {limit : Nat} {id : Option ObjectId} {i : FrameId} {m : Machine} :
      (Value.list id []).describe limit = .exhausted → Overruns (limit + 1) (.list id []) i m
  /-- It is met by the rule of a keyword. -/
  | special {limit : Nat} {id : Option ObjectId} {head : Value} {k : Keyword} {ops : List Value}
      {i : FrameId} {m m₁ : Machine} :
      head.keyword? = some k → Run.report limit (.keyword k) m = (.value (), m₁) →
      OverrunsRule (limit - 1) k ops i m₁ → Overruns (limit + 1) (.list id (head :: ops)) i m
  /-- It is inside an item of an application, when the items before have been evaluated. -/
  | item {limit : Nat} {id : Option ObjectId} {head : Value} {ops before after vs : List Value}
      {form : Value} {i : FrameId} {m m₁ : Machine} :
      head.keyword? = none → head :: ops = before ++ form :: after →
      evalAll (eval (limit - 1)) i before m = (.value vs, m₁) → Overruns (limit - 1) form i m₁ →
      Overruns (limit + 1) (.list id (head :: ops)) i m
  /-- It is met by the call, when all items have been evaluated. -/
  | call {limit : Nat} {id : Option ObjectId} {head v : Value} {ops args : List Value}
      {i : FrameId} {m m₁ : Machine} :
      head.keyword? = none → evalAll (eval (limit - 1)) i (head :: ops) m = (.value (v :: args), m₁) →
      OverrunsCall (limit - 2) v args m₁ → Overruns (limit + 1) (.list id (head :: ops)) i m

/-- Following the rule of a keyword comes to such a place. -/
inductive OverrunsRule : Nat → Keyword → List Value → FrameId → Machine → Prop where
  | test {limit : Nat} {test yes : Value} {rest : List Value} {i : FrameId} {m : Machine} :
      rest.length ≤ 1 → Overruns limit test i m →
      OverrunsRule limit .cond (test :: yes :: rest) i m
  | yes {limit : Nat} {test yes v : Value} {rest : List Value} {i : FrameId} {m m₁ : Machine} :
      rest.length ≤ 1 → eval limit test i m = (.value v, m₁) → v.isTrue = true →
      Overruns limit yes i m₁ → OverrunsRule limit .cond (test :: yes :: rest) i m
  | no {limit : Nat} {test yes no v : Value} {i : FrameId} {m m₁ : Machine} :
      eval limit test i m = (.value v, m₁) → v.isTrue = false → Overruns limit no i m₁ →
      OverrunsRule limit .cond [test, yes, no] i m
  | bound {limit : Nat} {k : Keyword} {x : String} {form : Value} {i : FrameId} {m : Machine} :
      k = .assign ∨ k = .define → Overruns limit form i m →
      OverrunsRule limit k [.symbol x, form] i m
  /-- It is a target that is no symbol, in the message about it. -/
  | badTarget {limit : Nat} {k : Keyword} {target form : Value} {i : FrameId} {m : Machine} :
      k = .assign ∨ k = .define → target.name? = none → target.describe limit = .exhausted →
      OverrunsRule limit k [target, form] i m
  /-- It is among parameters that are no list of symbols, in the message about them. -/
  | badParameters {limit : Nat} {params form : Value} {forms : List Value} {i : FrameId}
      {m : Machine} :
      (∀ id names, params ≠ .list id (symbols names)) → params.describe limit = .exhausted →
      OverrunsRule limit .lambda (params :: form :: forms) i m
  | begin {limit : Nat} {before after : List Value} {form v : Value} {i : FrameId}
      {m m₁ : Machine} :
      evalLast (eval limit) i .noValue before m = (.value v, m₁) → Overruns limit form i m₁ →
      OverrunsRule limit .begin (before ++ form :: after) i m

/-- Applying a value to arguments comes to such a place. -/
inductive OverrunsCall : Nat → Value → List Value → Machine → Prop where
  /-- It is inside the lists that a primitive compares, or an operand that it shows. -/
  | primitive {limit : Nat} {p : Primitive} {home : FrameId} {args : List Value} {m : Machine} :
      p.call limit m.store.objects args = .exhausted →
      OverrunsCall limit (.primitive p home) args m
  /-- It is a parameter, in the message that it cannot be bound. -/
  | parameter {limit : Nat} {id : ObjectId} {formals args : List Value} {body : Value}
      {captured : FrameId} {m : Machine} :
      (Scope.makeFor limit formals args captured m).1 = .exhausted →
      OverrunsCall limit (.closure id formals body captured) args m
  /-- It is a parameter, in the report of the call. -/
  | report {limit : Nat} {id : ObjectId} {formals args : List Value} {body : Value}
      {captured i : FrameId} {m m₁ : Machine} :
      Scope.makeFor limit formals args captured m = (.value i, m₁) →
      (Run.report limit (.applied formals args.length) m₁).1 = .exhausted →
      OverrunsCall limit (.closure id formals body captured) args m
  | body {limit : Nat} {id : ObjectId} {formals args : List Value} {body : Value}
      {captured i : FrameId} {m m₁ m₂ : Machine} :
      Scope.makeFor limit formals args captured m = (.value i, m₁) →
      Run.report limit (.applied formals args.length) m₁ = (.value (), m₂) →
      Overruns limit body i m₂ → OverrunsCall limit (.closure id formals body captured) args m
  /-- It is inside a value that is no procedure, in the message about it. -/
  | notCallable {limit : Nat} {v : Value} {args : List Value} {m : Machine} :
      ¬ v.IsProcedure → v.describe limit = .exhausted → OverrunsCall limit v args m

end

/-! ## Runs in sequence -/

namespace Run

variable {α β : Type} {m m' : Machine}

/-- A sequence has a value if its first part has one and its second part goes on from there. -/
theorem bind_eq_value_iff {x : Run α} {f : α → Run β} {b : β} :
    (x >>= f) m = (.value b, m') ↔ ∃ a m₁, x m = (.value a, m₁) ∧ f a m₁ = (.value b, m') := by
  constructor
  · intro h
    rcases bind_eq_ofExcept (r := .ok b) h with hvalue | ⟨e, -, hr⟩
    · exact hvalue
    · cases hr
  · rintro ⟨a, m₁, hx, hf⟩
    rw [bind_of_value f hx, hf]

/-- A sequence is cut off in its first part, or in its second part when the first has a value. -/
theorem bind_exhausted_iff {x : Run α} {f : α → Run β} :
    ((x >>= f) m).1 = .exhausted ↔
      (x m).1 = .exhausted ∨ ∃ a m₁, x m = (.value a, m₁) ∧ (f a m₁).1 = .exhausted := by
  rcases hx : x m with ⟨o, m₁⟩
  cases o with
  | value a =>
    rw [bind_of_value f hx]
    constructor
    · exact fun hf => Or.inr ⟨a, m₁, rfl, hf⟩
    · rintro (hcut | ⟨_, _, heq, hf⟩)
      · cases hcut
      · cases heq
        exact hf
  | fault e => simp [bind_of_fault f hx]
  | exhausted => simp [bind_of_exhausted f hx]

/-- A fault that shows a value is cut off where the description of the value is. -/
theorem faultShowing_exhausted_iff {limit : Nat} {v : Value} {make : String → Fault} :
    ((faultShowing limit v make : Run α) m).1 = .exhausted ↔ v.describe limit = .exhausted := by
  simp [faultShowing, bind_exhausted_iff]

/-- An event that there is a wording for is reported to the end. -/
theorem report_ne_exhausted {limit : Nat} {e : Event} {text : String}
    (h : e.message limit = .value text) : (Run.report limit e m).1 ≠ .exhausted := by
  obtain ⟨log, hlog⟩ := report_of_message h m
  rw [hlog]
  exact fun hcut => by cases hcut

end Run

variable {ev : Evaluator} {i : FrameId} {m m₁ : Machine}

/-- Forms are evaluated in turn: the place is inside one of them, when those before have values. -/
theorem evalAll_exhausted_iff {forms : List Value} :
    (evalAll ev i forms m).1 = .exhausted ↔
      ∃ before form after vs m₁, forms = before ++ form :: after ∧
        evalAll ev i before m = (.value vs, m₁) ∧ (ev form i m₁).1 = .exhausted := by
  induction forms generalizing m with
  | nil => simp [evalAll]
  | cons first forms ih =>
    simp only [evalAll, Run.bind_exhausted_iff, ih]
    constructor
    · rintro (hfirst | ⟨v, m₁, hv, ⟨before, form, after, vs, m₂, rfl, hvs, hform⟩ | ⟨_, _, -, hpure⟩⟩)
      · exact ⟨[], first, forms, [], m, rfl, rfl, hfirst⟩
      · refine ⟨first :: before, form, after, v :: vs, m₂, rfl, ?_, hform⟩
        rw [evalAll, Run.bind_of_value _ hv, Run.bind_of_value _ hvs, Run.pure_apply]
      · cases hpure
    · rintro ⟨before, form, after, vs, m₂, heq, hvs, hform⟩
      cases before with
      | nil =>
        cases heq
        cases hvs
        exact Or.inl hform
      | cons _ before =>
        cases heq
        obtain ⟨v, m₁, hv, hrest⟩ := Run.bind_eq_value_iff.1 hvs
        obtain ⟨rest, m₃, hrest, hpure⟩ := Run.bind_eq_value_iff.1 hrest
        cases hpure
        exact Or.inr ⟨v, m₁, hv, Or.inl ⟨before, form, after, rest, m₂, rfl, hrest, hform⟩⟩

/-- The same for forms of which only the last value is wanted. -/
theorem evalLast_exhausted_iff {last : Value} {forms : List Value} :
    (evalLast ev i last forms m).1 = .exhausted ↔
      ∃ before form after v m₁, forms = before ++ form :: after ∧
        evalLast ev i last before m = (.value v, m₁) ∧ (ev form i m₁).1 = .exhausted := by
  induction forms generalizing last m with
  | nil => simp [evalLast]
  | cons first forms ih =>
    simp only [evalLast, Run.bind_exhausted_iff, ih]
    constructor
    · rintro (hfirst | ⟨v, m₁, hv, before, form, after, w, m₂, rfl, hw, hform⟩)
      · exact ⟨[], first, forms, last, m, rfl, rfl, hfirst⟩
      · refine ⟨first :: before, form, after, w, m₂, rfl, ?_, hform⟩
        rw [evalLast, Run.bind_of_value _ hv, hw]
    · rintro ⟨before, form, after, w, m₂, heq, hw, hform⟩
      cases before with
      | nil =>
        cases heq
        cases hw
        exact Or.inl hform
      | cons _ before =>
        cases heq
        obtain ⟨v, m₁, hv, hrest⟩ := Run.bind_eq_value_iff.1 hw
        exact Or.inr ⟨v, m₁, hv, before, form, after, w, m₂, rfl, hrest, hform⟩

/-! ## Evaluation -/

/-- With this depth, evaluation is cut off exactly at the places that the relation tells. -/
def PlacesKnown (limit : Nat) : Prop :=
  ∀ form i m, (eval limit form i m).1 = .exhausted ↔ Overruns limit form i m

variable {limit : Nat}

/-- Assigning to a symbol comes to an end, whether there is a frame to own it or not. -/
theorem Scope.assign_ne_exhausted (x : String) (v : Value) :
    (Scope.assign i x v m).1 ≠ .exhausted := by
  rw [Scope.assign_apply]
  split <;> exact fun h => by cases h

/-- The rules of keywords with a target, when the target is a symbol. -/
theorem run_target_exhausted_iff {k : Keyword} (hk : k = .assign ∨ k = .define) {x : String}
    {form : Value} :
    (k.run limit ev [.symbol x, form] i m).1 = .exhausted ↔ (ev form i m).1 = .exhausted := by
  rcases hk with rfl | rfl <;> simp only [Keyword.run, Keyword.runAssign, Keyword.runDefine,
    Run.bind_exhausted_iff, Scope.assign_ne_exhausted, Scope.define, Run.update_apply,
    Run.pure_apply, reduceCtorEq, and_false, exists_false, or_false]

/-- A place inside the rule of a keyword cuts the rule off. -/
theorem run_exhausted_of_overruns (h : PlacesKnown limit) {k : Keyword} {ops : List Value}
    (hover : OverrunsRule limit k ops i m) :
    (k.run limit (eval limit) ops i m).1 = .exhausted := by
  cases hover with
  | test hrest htest =>
    rw [Keyword.run, runCond_eq hrest]
    exact Run.bind_exhausted_iff.2 (Or.inl ((h _ _ _).2 htest))
  | yes hrest htest hv hyes =>
    rw [Keyword.run, runCond_eq hrest, Run.bind_of_value _ htest, if_pos hv]
    exact (h _ _ _).2 hyes
  | no htest hv hno =>
    rw [Keyword.run, runCond_eq (by simp), Run.bind_of_value _ htest, if_neg (by simp [hv])]
    exact (h _ _ _).2 hno
  | bound hk hform => exact (run_target_exhausted_iff hk).2 ((h _ _ _).2 hform)
  | badTarget hk ht hshow =>
    rw [run_of_badTarget hk ht]
    exact Run.faultShowing_exhausted_iff.2 hshow
  | badParameters hparams hshow =>
    rw [Keyword.run, runLambda_of_bad hparams]
    exact Run.faultShowing_exhausted_iff.2 hshow
  | begin hbefore hform =>
    exact evalLast_exhausted_iff.2 ⟨_, _, _, _, _, rfl, hbefore, (h _ _ _).2 hform⟩

/-- A rule of a keyword that is cut off was cut off at such a place. -/
theorem overruns_of_run_exhausted (h : PlacesKnown limit) {k : Keyword} {ops : List Value}
    (hcut : (k.run limit (eval limit) ops i m).1 = .exhausted) : OverrunsRule limit k ops i m := by
  cases k.shape ops with
  | misused htakes =>
    rw [Keyword.run_of_not_takes htakes] at hcut
    cases hcut
  | quote => cases hcut
  | @cond test yes no hno =>
    rw [Keyword.run, runCond_eq hno] at hcut
    rcases Run.bind_exhausted_iff.1 hcut with htest | ⟨v, m₁, hv, hcut⟩
    · exact .test hno ((h _ _ _).1 htest)
    · split at hcut
      · next hholds => exact .yes hno hv hholds ((h _ _ _).1 hcut)
      · next hfails =>
        match no with
        | [] => cases hcut
        | [_] => exact .no hv (Bool.eq_false_iff.2 hfails) ((h _ _ _).1 hcut)
  | assign => exact .bound (Or.inl rfl) ((h _ _ _).1 ((run_target_exhausted_iff (Or.inl rfl)).1 hcut))
  | define => exact .bound (Or.inr rfl) ((h _ _ _).1 ((run_target_exhausted_iff (Or.inr rfl)).1 hcut))
  | badTarget hk ht =>
    rw [run_of_badTarget hk ht] at hcut
    exact .badTarget hk ht (Run.faultShowing_exhausted_iff.1 hcut)
  | lambda =>
    -- The report only counts the parameters, and making a closure always succeeds.
    rw [Keyword.run, Keyword.runLambda_symbols] at hcut
    rcases Run.bind_exhausted_iff.1 hcut with hreport | ⟨_, m₁, -, hmade⟩
    · exact absurd hreport (Run.report_ne_exhausted rfl)
    · cases hmade
  | badParameters hparams =>
    rw [Keyword.run, runLambda_of_bad hparams] at hcut
    exact .badParameters hparams (Run.faultShowing_exhausted_iff.1 hcut)
  | begin =>
    obtain ⟨before, form, after, v, m₁, rfl, hv, hform⟩ := evalLast_exhausted_iff.1 hcut
    exact .begin hv ((h _ _ _).1 hform)

/-- A place inside a call cuts the call off. -/
theorem apply_exhausted_of_overruns (h : PlacesKnown limit) {v : Value} {args : List Value}
    (hover : OverrunsCall limit v args m) : (apply limit (eval limit) v args m).1 = .exhausted := by
  cases hover with
  | primitive hcall => exact hcall
  | parameter hframe => exact Run.bind_exhausted_iff.2 (Or.inl hframe)
  | report hframe hreport =>
    rw [apply, Run.bind_of_value _ hframe]
    exact Run.bind_exhausted_iff.2 (Or.inl hreport)
  | body hframe hreport hbody =>
    rw [apply, Run.bind_of_value _ hframe, Run.bind_of_value _ hreport]
    exact (h _ _ _).2 hbody
  | notCallable hv hshow =>
    rw [apply_of_not_procedure hv]
    exact Run.faultShowing_exhausted_iff.2 hshow

/-- A call that is cut off was cut off at such a place. -/
theorem overruns_of_apply_exhausted (h : PlacesKnown limit) {v : Value} {args : List Value}
    (hcut : (apply limit (eval limit) v args m).1 = .exhausted) : OverrunsCall limit v args m := by
  by_cases hv : v.IsProcedure
  · cases v with
    | primitive p home => exact .primitive hcut
    | closure id formals body captured =>
      rcases Run.bind_exhausted_iff.1 hcut with hframe | ⟨j, m₁, hframe, hcut⟩
      · exact .parameter hframe
      · rcases Run.bind_exhausted_iff.1 hcut with hreport | ⟨_, m₂, hreport, hcut⟩
        · exact .report hframe hreport
        · exact .body hframe hreport ((h _ _ _).1 hcut)
    | _ => rcases hv with hv | hv <;> cases hv
  · rw [apply_of_not_procedure hv] at hcut
    exact .notCallable hv (Run.faultShowing_exhausted_iff.1 hcut)

/-- An application is cut off in one of its items, or else in the call. -/
theorem evalStep_application_exhausted_iff {deeper : Nat → Evaluator} {id : Option ObjectId}
    {head : Value} {ops : List Value} (hk : head.keyword? = none) :
    (evalStep limit deeper (.list id (head :: ops)) i m).1 = .exhausted ↔
      (evalAll (deeper 1) i (head :: ops) m).1 = .exhausted ∨
      ∃ v args m₁, evalAll (deeper 1) i (head :: ops) m = (.value (v :: args), m₁) ∧
        (apply (limit - 2) (deeper 2) v args m₁).1 = .exhausted := by
  simp only [evalStep, hk, evalAll, Run.bind_exhausted_iff, Run.bind_eq_value_iff]
  constructor
  · rintro (hhead | ⟨v, m₁, hv, hops | ⟨args, m₂, hargs, hcall⟩⟩)
    · exact Or.inl (Or.inl hhead)
    · exact Or.inl (Or.inr ⟨v, m₁, hv, Or.inl hops⟩)
    · exact Or.inr ⟨v, args, m₂, ⟨v, m₁, hv, args, m₂, hargs, rfl⟩, hcall⟩
  · rintro ((hhead | ⟨v, m₁, hv, hops | ⟨_, _, -, hpure⟩⟩) | ⟨v, args, m₂, hall, hcall⟩)
    · exact Or.inl hhead
    · exact Or.inr ⟨v, m₁, hv, Or.inl hops⟩
    · cases hpure
    · obtain ⟨_, m₁, hv, _, _, hargs, hpure⟩ := hall
      cases hpure
      exact Or.inr ⟨v, m₁, hv, Or.inr ⟨args, m₂, hargs, hcall⟩⟩

/-- One step is cut off exactly at such a place, if that is so with less depth. -/
theorem placesKnown_succ (h : ∀ n ≤ limit, PlacesKnown n) : PlacesKnown (limit + 1) := by
  intro form i m
  rw [eval]
  cases form with
  | list id items =>
    cases items with
    | nil =>
      refine Run.faultShowing_exhausted_iff.trans ⟨.nothing, ?_⟩
      rintro (_ | hshow)
      exact hshow
    | cons head ops =>
      cases hk : head.keyword? with
      | some k =>
        have hrule := h (limit - 1) (Nat.sub_le ..)
        obtain ⟨log, hlog⟩ := Run.report_of_message (e := .keyword k) rfl m
        simp only [evalStep, hk]
        rw [Run.bind_of_value _ hlog]
        constructor
        · intro hcut
          exact .special hk hlog (overruns_of_run_exhausted hrule hcut)
        · intro hover
          cases hover with
          | special hk' hreport hover =>
            cases hk.symm.trans hk'
            cases hlog.symm.trans hreport
            exact run_exhausted_of_overruns hrule hover
          | item hk' | call hk' => cases hk.symm.trans hk'
      | none =>
        have hitem := h (limit - 1) (Nat.sub_le ..)
        have hcall := h (limit - 2) (Nat.sub_le ..)
        rw [evalStep_application_exhausted_iff hk, evalAll_exhausted_iff]
        constructor
        · rintro (⟨before, form, after, vs, m₁, heq, hvs, hcut⟩ | ⟨v, args, m₁, hall, hcut⟩)
          · exact .item hk heq hvs ((hitem _ _ _).1 hcut)
          · exact .call hk hall (overruns_of_apply_exhausted hcall hcut)
        · intro hover
          cases hover with
          | special hk' => cases hk.symm.trans hk'
          | item _ heq hvs hform =>
            exact Or.inl ⟨_, _, _, _, _, heq, hvs, (hitem _ _ _).2 hform⟩
          | call _ hall hover =>
            exact Or.inr ⟨_, _, _, hall, apply_exhausted_of_overruns hcall hover⟩
  | symbol x =>
    constructor
    · intro hcut
      rw [evalStep, Scope.lookup_apply] at hcut
      split at hcut <;> cases hcut
    · intro hover
      cases hover
  | _ =>
    constructor
    · intro hcut
      cases hcut
    · intro hover
      cases hover

/-- An evaluation is cut off exactly if it comes to a place that there is no depth left for. -/
theorem placesKnown (limit : Nat) : PlacesKnown limit := by
  induction limit using Nat.strongRecOn with
  | ind limit ih =>
    cases limit with
    | zero =>
      intro form i m
      rw [eval]
      exact ⟨fun _ => .form, fun _ => rfl⟩
    | succ limit => exact placesKnown_succ fun n hn => ih n (Nat.lt_succ_of_le hn)

end Lisplet
