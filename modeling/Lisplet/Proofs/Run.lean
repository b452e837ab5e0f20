import Lisplet.Machine

/-!
# How runs end

Two views of a run. From a run that has ended, its steps can be read off: a sequence of two runs
ended because the first one failed, or because the second one ended on the machine that the first one
left. To show how a run ends, its steps are put together, whatever the log holds.

Main definitions: `Run.Ends`, `Run.Concludes`. Main statements: `Run.bind_eq_ofExcept`, `Run.Ends.bind`,
`Run.Ends.bind_error`, `Run.report_of_message`.
-/

namespace Lisplet

namespace Outcome

variable {α : Type}

@[simp]
theorem ofExcept_ok (a : α) : Outcome.ofExcept (.ok a) = .value a := rfl

@[simp]
theorem ofExcept_error (f : Fault) : (Outcome.ofExcept (.error f) : Outcome α) = .fault f := rfl

theorem ofExcept_ne_exhausted (r : Except Fault α) : Outcome.ofExcept r ≠ .exhausted := by
  cases r <;> exact fun h => by cases h

theorem ofExcept_injective {r r' : Except Fault α} (h : Outcome.ofExcept r = Outcome.ofExcept r') :
    r = r' := by
  cases r <;> cases r' <;> cases h <;> rfl

end Outcome

/-! A form that can be described can be reported. -/

theorem Event.message_readForm {limit : Nat} {form : Value} {text : String}
    (h : form.describe limit = .value text) :
    (Event.readForm form).message limit = .value ("read form " ++ text) := by
  simp [Event.message, h]

theorem Event.message_parsed {limit : Nat} {form : Value} {text : String}
    (h : form.describe limit = .value text) :
    (Event.parsed form).message limit = .value ("parsed " ++ text) := by
  simp [Event.message, h]

namespace Run

variable {α β : Type} {m m' : Machine}

@[simp]
theorem pure_apply (a : α) (m : Machine) : (pure a : Run α) m = (.value a, m) := rfl

@[simp]
theorem lift_apply (o : Outcome α) (m : Machine) : Run.lift o m = (o, m) := rfl

@[simp]
theorem fault_apply (f : Fault) (m : Machine) : (Run.fault f : Run α) m = (.fault f, m) := rfl

@[simp]
theorem query_apply (f : Store → α) (m : Machine) : Run.query f m = (.value (f m.store), m) := rfl

@[simp]
theorem update_apply (f : Store → α × Store) (m : Machine) :
    Run.update f m = (.value (f m.store).1, { m with store := (f m.store).2 }) := rfl

/-! ## Sequences -/

theorem bind_of_value {x : Run α} {a : α} (f : α → Run β) (h : x m = (.value a, m')) :
    (x >>= f) m = f a m' := by
  show Run.bind x f m = f a m'
  rw [Run.bind, h]

theorem bind_of_fault {x : Run α} {e : Fault} (f : α → Run β) (h : x m = (.fault e, m')) :
    (x >>= f) m = (.fault e, m') := by
  show Run.bind x f m = (.fault e, m')
  rw [Run.bind, h]

theorem bind_of_exhausted {x : Run α} (f : α → Run β) (h : x m = (.exhausted, m')) :
    (x >>= f) m = (.exhausted, m') := by
  show Run.bind x f m = (.exhausted, m')
  rw [Run.bind, h]

/-- A sequence of two runs that was not cut off: the second run ended on what the first one left, or
the first one failed. -/
theorem bind_eq_ofExcept {x : Run α} {f : α → Run β} {r : Except Fault β}
    (h : (x >>= f) m = (Outcome.ofExcept r, m')) :
    (∃ a m₁, x m = (.value a, m₁) ∧ f a m₁ = (Outcome.ofExcept r, m')) ∨
      ∃ e, x m = (.fault e, m') ∧ r = .error e := by
  rcases hx : x m with ⟨o, m₁⟩
  -- Had the first run been cut off, so would be the sequence.
  cases o with
  | value a =>
    rw [bind_of_value f hx] at h
    exact Or.inl ⟨a, m₁, rfl, h⟩
  | fault e =>
    rw [bind_of_fault f hx] at h
    obtain ⟨ho, hm⟩ := Prod.mk.inj h
    have hr : r = .error e := Outcome.ofExcept_injective ho.symm
    exact Or.inr ⟨e, hm ▸ rfl, hr⟩
  | exhausted =>
    rw [bind_of_exhausted f hx] at h
    exact absurd (Prod.mk.inj h).1.symm (Outcome.ofExcept_ne_exhausted r)

/-! ## Reports -/

/-- Reporting an event whose message can be worked out changes the log at most. -/
theorem report_of_message {limit : Nat} {e : Event} {text : String}
    (h : e.message limit = .value text) (m : Machine) :
    ∃ log, Run.report limit e m = (.value (), ⟨m.store, log⟩) := by
  unfold Run.report
  by_cases hk : m.log.keeps e.level = true
  · rw [if_pos hk, h]
    exact ⟨_, rfl⟩
  · rw [if_neg hk]
    exact ⟨m.log, rfl⟩

/-- After such a report a run goes on with the same store. -/
theorem report_bind_eq {limit : Nat} {e : Event} {text : String} {f : Unit → Run α}
    {o : Outcome α} (h : e.message limit = .value text)
    (hrun : (Run.report limit e >>= f) m = (o, m')) :
    ∃ log, f () ⟨m.store, log⟩ = (o, m') := by
  obtain ⟨log, hlog⟩ := report_of_message h m
  rw [bind_of_value f hlog] at hrun
  exact ⟨log, hrun⟩

/-! ## Ends, whatever the log holds -/

/-- From the store `s` the run ends with `r` and leaves the store `s'`, whatever the log holds. -/
def Ends (x : Run α) (s : Store) (r : Except Fault α) (s' : Store) : Prop :=
  ∀ log, ∃ log', x ⟨s, log⟩ = (Outcome.ofExcept r, ⟨s', log'⟩)

namespace Ends

variable {x : Run α} {f : α → Run β} {s s₁ s₂ : Store} {a : α} {e : Fault}

protected theorem pure (a : α) (s : Store) : Ends (pure a) s (.ok a) s :=
  fun log => ⟨log, rfl⟩

protected theorem fault (e : Fault) (s : Store) : Ends (Run.fault e : Run α) s (.error e) s :=
  fun log => ⟨log, rfl⟩

theorem lift {o : Outcome α} {r : Except Fault α} (h : o = Outcome.ofExcept r) (s : Store) :
    Ends (Run.lift o) s r s :=
  fun log => ⟨log, by rw [lift_apply, h]⟩

theorem update (g : Store → α × Store) (s : Store) :
    Ends (Run.update g) s (.ok (g s).1) (g s).2 :=
  fun log => ⟨log, rfl⟩

theorem report {limit : Nat} {ev : Event} {text : String} (h : ev.message limit = .value text)
    (s : Store) : Ends (Run.report limit ev) s (.ok ()) s :=
  fun log => report_of_message h ⟨s, log⟩

protected theorem bind {r : Except Fault β} (hx : Ends x s (.ok a) s₁) (hf : Ends (f a) s₁ r s₂) :
    Ends (x >>= f) s r s₂ := by
  intro log
  obtain ⟨log₁, h₁⟩ := hx log
  obtain ⟨log₂, h₂⟩ := hf log₁
  exact ⟨log₂, by rw [bind_of_value f h₁, h₂]⟩

theorem bind_error (hx : Ends x s (.error e) s₁) : Ends (x >>= f) s (.error e) s₁ := by
  intro log
  obtain ⟨log₁, h₁⟩ := hx log
  exact ⟨log₁, bind_of_fault f h₁⟩

/-- A run that is not cut off is the same when being cut off counts as a fault. -/
theorem guard {r : Except Fault α} (activity : Activity) (hx : Ends x s r s₁) :
    Ends (x.guard activity) s r s₁ := by
  intro log
  obtain ⟨log₁, h₁⟩ := hx log
  refine ⟨log₁, ?_⟩
  rw [Run.guard, h₁]
  cases r <;> rfl

end Ends

/-- What is made of the value of a run without the machine leaves the machine as it is. -/
theorem bind_ofExcept_snd (x : Run α) (g : α → Except Fault β) (m : Machine) :
    ((x >>= fun a => Run.ofExcept (g a)) m).2 = (x m).2 := by
  rcases h : x m with ⟨o, m'⟩
  cases o with
  | value a =>
    rw [bind_of_value _ h]
    rfl
  | fault e => rw [bind_of_fault _ h]
  | exhausted => rw [bind_of_exhausted _ h]

/-! ## Runs that are never cut off -/

/-- On every machine the run ends with a value or a fault. -/
def Concludes (x : Run α) : Prop :=
  ∀ m, ∃ r m', x m = (Outcome.ofExcept r, m')

namespace Concludes

variable {x : Run α} {f : α → Run β}

protected theorem pure (a : α) : Concludes (pure a) :=
  fun m => ⟨.ok a, m, rfl⟩

protected theorem fault (e : Fault) : Concludes (Run.fault e : Run α) :=
  fun m => ⟨.error e, m, rfl⟩

theorem ofExcept (r : Except Fault α) : Concludes (Run.ofExcept r) :=
  fun m => ⟨r, m, rfl⟩

theorem guard (activity : Activity) (x : Run α) : Concludes (x.guard activity) :=
  fun m => ⟨(x m).1.toExcept activity, (x m).2, rfl⟩

theorem report {limit : Nat} {e : Event} {text : String} (h : e.message limit = .value text) :
    Concludes (Run.report limit e) := by
  intro m
  obtain ⟨log, hlog⟩ := report_of_message h m
  exact ⟨.ok (), _, hlog⟩

protected theorem bind (hx : Concludes x) (hf : ∀ a, Concludes (f a)) : Concludes (x >>= f) := by
  intro m
  obtain ⟨r, m₁, h₁⟩ := hx m
  cases r with
  | ok a =>
    obtain ⟨r, m₂, h₂⟩ := hf a m₁
    exact ⟨r, m₂, by rw [bind_of_value f h₁, h₂]⟩
  | error e => exact ⟨.error e, m₁, bind_of_fault f h₁⟩

end Concludes

end Run

end Lisplet
