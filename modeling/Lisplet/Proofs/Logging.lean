import Lisplet.Proofs.Operands
import Lisplet.Proofs.Reading
import Lisplet.Session

/-!
# Logs do not interfere

A run reports what it does, but what it does never depends on the log: neither on the records that are
there nor on the level from which on records are kept. A report could make a difference only if its
message could not be worked out. That never happens: the forms that are reported were read under the same
depth limit, and a closure is reported only when its parameters are known to be symbols.

So two runs of one task on machines with equal stores end alike. How their logs are related is left open
here: any relation will do that survives adding the same record to both logs.

Main definitions: `Log.note`, `Machine.Alike`, `Run.Oblivious`. Main statements: `eval_oblivious`,
`Session.run_oblivious`.
-/

namespace Lisplet

/-- The log after a record, which it keeps or not. -/
def Log.note (log : Log) (r : LogRecord) : Log :=
  if log.keeps r.level then log.add r else log

/-- A relation between logs that goes on to hold whatever is reported to both. -/
def Log.Stable (R : Log → Log → Prop) : Prop :=
  ∀ log log' r, R log log' → R (log.note r) (log'.note r)

/-- Machines with the same store and related logs. -/
structure Machine.Alike (R : Log → Log → Prop) (m n : Machine) : Prop where
  store : m.store = n.store
  log : R m.log n.log

/-- On machines that are alike the run has the same outcome, and it leaves machines that are alike. -/
def Run.Oblivious {α : Type} (R : Log → Log → Prop) (x : Run α) : Prop :=
  ∀ m n : Machine, m.Alike R n → (x m).1 = (x n).1 ∧ (x m).2.Alike R (x n).2

/-- A report whose message can be worked out notes it in the log. -/
theorem Run.report_eq {limit : Nat} {e : Event} {text : String} (h : e.message limit = .value text)
    (m : Machine) :
    Run.report limit e m = (.value (), { m with log := m.log.note ⟨e.level, e.source, text⟩ }) := by
  unfold Run.report Log.note
  split
  · rw [h]
  · rfl

namespace Run.Oblivious

variable {R : Log → Log → Prop} {α β : Type} {x : Run α} {f : α → Run β}

theorem lift (o : Outcome α) : (Run.lift o).Oblivious R :=
  fun _ _ h => ⟨rfl, h⟩

protected theorem pure (a : α) : (pure a : Run α).Oblivious R :=
  fun _ _ h => ⟨rfl, h⟩

theorem query (g : Store → α) : (Run.query g).Oblivious R := by
  intro m n h
  rw [Run.query_apply, Run.query_apply, h.store]
  exact ⟨rfl, h⟩

theorem update (g : Store → α × Store) : (Run.update g).Oblivious R := by
  intro m n h
  rw [Run.update_apply, Run.update_apply, h.store]
  exact ⟨rfl, rfl, h.log⟩

theorem report {limit : Nat} {e : Event} {text : String} (hR : Log.Stable R)
    (h : e.message limit = .value text) : (Run.report limit e).Oblivious R := by
  intro m n halike
  rw [Run.report_eq h, Run.report_eq h]
  exact ⟨rfl, halike.store, hR _ _ _ halike.log⟩

/-- In a sequence, what follows need be oblivious only for values that the first part can have. -/
protected theorem bind (hx : x.Oblivious R)
    (hf : ∀ a, (∃ m m₁, x m = (.value a, m₁)) → (f a).Oblivious R) : (x >>= f).Oblivious R := by
  intro m n halike
  obtain ⟨ho, h₁⟩ := hx m n halike
  rcases hm : x m with ⟨o, m₁⟩
  rcases hn : x n with ⟨o', n₁⟩
  rw [hm, hn] at ho h₁
  dsimp only at ho h₁
  subst ho
  cases o with
  | value a =>
    rw [Run.bind_of_value f hm, Run.bind_of_value f hn]
    exact hf a ⟨m, m₁, hm⟩ m₁ n₁ h₁
  | fault e =>
    rw [Run.bind_of_fault f hm, Run.bind_of_fault f hn]
    exact ⟨rfl, h₁⟩
  | exhausted =>
    rw [Run.bind_of_exhausted f hm, Run.bind_of_exhausted f hn]
    exact ⟨rfl, h₁⟩

theorem faultShowing (limit : Nat) (v : Value) (make : String → Fault) :
    (Run.faultShowing limit v make : Run α).Oblivious R :=
  (lift _).bind fun _ _ => lift _

theorem guard (activity : Activity) (hx : x.Oblivious R) : (x.guard activity).Oblivious R := by
  intro m n halike
  obtain ⟨ho, h₁⟩ := hx m n halike
  refine ⟨?_, h₁⟩
  show Outcome.ofExcept ((x m).1.toExcept activity) = Outcome.ofExcept ((x n).1.toExcept activity)
  rw [ho]

end Run.Oblivious

/-! ## Evaluation -/

section Evaluation

variable {R : Log → Log → Prop} {limit : Nat} {ev : Evaluator}

/-- No evaluation of a form in a frame depends on the log. -/
def Evaluator.Oblivious (R : Log → Log → Prop) (ev : Evaluator) : Prop :=
  ∀ form i, (ev form i).Oblivious R

theorem evalAll_oblivious (hev : Evaluator.Oblivious R ev) (i : FrameId) (forms : List Value) :
    (evalAll ev i forms).Oblivious R := by
  induction forms with
  | nil => exact .pure _
  | cons form forms ih => exact (hev form i).bind fun _ _ => ih.bind fun _ _ => .pure _

theorem evalLast_oblivious (hev : Evaluator.Oblivious R ev) (i : FrameId) (last : Value)
    (forms : List Value) : (evalLast ev i last forms).Oblivious R := by
  induction forms generalizing last with
  | nil => exact .pure _
  | cons form forms ih => exact (hev form i).bind fun v _ => ih v

theorem Scope.assign_oblivious (i : FrameId) (x : String) (v : Value) :
    (Scope.assign i x v).Oblivious R := by
  refine (Run.Oblivious.query _).bind fun found _ => ?_
  cases found with
  | some j => exact .update _
  | none => exact .lift _

theorem Keyword.run_oblivious (hR : Log.Stable R) (hev : Evaluator.Oblivious R ev) (k : Keyword)
    (ops : List Value) (i : FrameId) : (k.run limit ev ops i).Oblivious R := by
  cases k.shape ops with
  | misused htakes =>
    rw [Keyword.run_of_not_takes htakes]
    exact .lift _
  | quote => exact .pure _
  | @cond test yes no hno =>
    rw [Keyword.run, runCond_eq hno]
    refine (hev test i).bind fun v _ => ?_
    split
    · exact hev yes i
    · split
      · exact .pure _
      · exact hev _ i
  | @assign x form =>
    refine (hev form i).bind fun v _ => ?_
    exact (Scope.assign_oblivious i x v).bind fun _ _ => .pure _
  | @define x form =>
    refine (hev form i).bind fun v _ => ?_
    exact (Run.Oblivious.update _).bind fun _ _ => .pure _
  | badTarget hk ht =>
    rw [run_of_badTarget hk ht]
    exact .faultShowing _ _ _
  | lambda =>
    rw [Keyword.run, Keyword.runLambda_symbols]
    exact (Run.Oblivious.report hR rfl).bind fun _ _ => .update _
  | badParameters hparams =>
    rw [Keyword.run, runLambda_of_bad hparams]
    exact .faultShowing _ _ _
  | begin => exact evalLast_oblivious hev i _ ops

/-- Whether a call gets its frame depends on the parameters and the arguments. -/
theorem Scope.makeFor_oblivious (formals args : List Value) (captured : FrameId) :
    (Scope.makeFor limit formals args captured).Oblivious R := by
  unfold Scope.makeFor Scope.make
  split
  · split
    · exact .lift _
    · split
      · exact .update _
      · exact .faultShowing _ _ _
  · exact .lift _

theorem apply_oblivious (hR : Log.Stable R) (hev : Evaluator.Oblivious R ev) (v : Value)
    (args : List Value) : (apply limit ev v args).Oblivious R := by
  cases v with
  | primitive p home => exact (Run.Oblivious.update _).bind fun id _ => .lift _
  | closure id formals body captured =>
    refine (Scope.makeFor_oblivious formals args captured).bind fun i hmade => ?_
    -- There is a frame, so the parameters are symbols and the call can be reported.
    obtain ⟨m, m₁, hmake⟩ := hmade
    obtain ⟨names, rfl, -⟩ := Scope.makeFor_eq_value hmake
    obtain ⟨text, hmessage⟩ := applied_message limit names args.length
    exact (Run.Oblivious.report hR hmessage).bind fun _ _ => hev body i
  | _ => exact .faultShowing _ _ _

theorem evalStep_oblivious (hR : Log.Stable R) {deeper : Nat → Evaluator}
    (hdeep : ∀ k, Evaluator.Oblivious R (deeper k)) :
    Evaluator.Oblivious R (evalStep limit deeper) := by
  intro form i
  cases form with
  | symbol x =>
    refine (Run.Oblivious.query _).bind fun found _ => ?_
    cases found with
    | some v => exact .pure _
    | none => exact .lift _
  | list id items =>
    cases items with
    | nil => exact .faultShowing _ _ _
    | cons head ops =>
      simp only [evalStep]
      cases head.keyword? with
      | some k =>
        exact (Run.Oblivious.report hR rfl).bind fun _ _ => k.run_oblivious hR (hdeep 1) ops i
      | none =>
        refine (hdeep 1 head i).bind fun procedure _ => ?_
        refine (evalAll_oblivious (hdeep 1) i ops).bind fun args _ => ?_
        exact apply_oblivious hR (hdeep 2) procedure args
  | _ => exact .pure _

/-- Evaluation does not depend on the log. -/
theorem eval_oblivious (hR : Log.Stable R) (limit : Nat) : Evaluator.Oblivious R (eval limit) := by
  induction limit using Nat.strongRecOn with
  | ind limit ih =>
    cases limit with
    | zero =>
      intro form i
      rw [eval]
      exact .lift _
    | succ limit =>
      rw [eval]
      exact evalStep_oblivious hR fun k => ih (limit - k) (by omega)

/-! ## Sources -/

theorem evalForms_oblivious (hR : Log.Stable R) (i : FrameId) {forms : List Value}
    (h : ∀ form ∈ forms, ∃ text, form.describe limit = .value text) (last : Value) :
    (evalForms limit i last forms).Oblivious R := by
  induction forms generalizing last with
  | nil => exact .pure _
  | cons form forms ih =>
    obtain ⟨⟨text, htext⟩, hforms⟩ := List.forall_mem_cons.1 h
    refine (Run.Oblivious.report hR (Event.message_readForm htext)).bind fun _ _ => ?_
    exact ((eval_oblivious hR limit form i).guard _).bind fun v _ => ih hforms v

theorem evalSource_oblivious (hR : Log.Stable R) (limit : Nat) (source : String) (i : FrameId) :
    (evalSource limit source i).Oblivious R := by
  refine (evalForms_oblivious hR i (fun _ => describe_of_mem_readForms) _).bind fun v _ => ?_
  split
  · exact .pure _
  · exact .lift _

theorem Session.run_oblivious (hR : Log.Stable R) (limit : Nat) (s : Session) (source : String) :
    (s.run limit source).Oblivious R :=
  (evalSource_oblivious hR limit source s.global).bind fun _ _ => .lift _

/-- What a session answers, and the store it leaves, depend on the store and the source only. -/
theorem Session.run_of_store_eq (limit : Nat) (s : Session) (source : String) {m n : Machine}
    (h : m.store = n.store) :
    (s.run limit source m).1 = (s.run limit source n).1 ∧
      (s.run limit source m).2.store = (s.run limit source n).2.store := by
  have hstable : Log.Stable fun _ _ => True := fun _ _ _ _ => trivial
  obtain ⟨houtcome, halike⟩ := Session.run_oblivious hstable limit s source m n ⟨h, trivial⟩
  exact ⟨houtcome, halike.store⟩

end Evaluation

end Lisplet
