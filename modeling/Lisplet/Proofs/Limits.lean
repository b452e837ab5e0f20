import Lisplet.Proofs.Answers
import Lisplet.Proofs.Depth
import Lisplet.Proofs.Overrun
import Lisplet.Proofs.ReadBack

/-!
# What the depth limit can do to a run

A source is read, evaluated and printed under one depth limit, and the four recursions that spend it
nest in one another: the reader, the evaluator, the comparison and description of values, and the
printer. Whatever they do, the limit can only cut a run off, and a run that was cut off ends with a
fault of its own kind. So a result of any other kind is the result under every larger limit, with the
same effects.

Main definitions: `Outcome.CutOff`, `Run.Approx`, `TokenStream.Yields`. Main statements: `eval_approx`,
`Session.run_approx`, `Session.run_limit`.
-/

namespace Lisplet

/-! ## Runs that were cut off -/

/-- The depth limit was reached, or was reached and turned into a fault. -/
def Outcome.CutOff {α : Type} (o : Outcome α) : Prop :=
  o = .exhausted ∨ ∃ activity, o = .fault (.tooDeep activity)

/-- The first run approximates the second: on every machine it was cut off, or both end in the same
way and leave the same machine. -/
def Run.Approx {α : Type} (x y : Run α) : Prop :=
  ∀ m, (x m).1.CutOff ∨ x m = y m

namespace Run.Approx

variable {α β : Type} {x y : Run α}

theorem refl (x : Run α) : x.Approx x :=
  fun _ => Or.inr rfl

theorem exhausted (y : Run α) : (Run.exhausted : Run α).Approx y :=
  fun _ => Or.inl (Or.inl rfl)

theorem tooDeep (activity : Activity) (y : Run α) :
    (Run.fault (.tooDeep activity) : Run α).Approx y :=
  fun _ => Or.inl (Or.inr ⟨activity, rfl⟩)

theorem lift {o o' : Outcome α} (h : o.Approx o') : (Run.lift o).Approx (Run.lift o') := by
  intro m
  rcases h with rfl | rfl
  · exact exhausted _ m
  · exact refl _ m

/-- Going on with approximations gives an approximation. -/
theorem bind {f g : α → Run β} (h : x.Approx y) (hf : ∀ a, (f a).Approx (g a)) :
    (x >>= f).Approx (y >>= g) := by
  intro m
  rcases hx : x m with ⟨o, m₁⟩
  rcases h m with hcut | heq
  · -- Nothing follows a run that was cut off, so the sequence was cut off with it.
    rw [hx] at hcut
    left
    rcases hcut with rfl | ⟨activity, rfl⟩
    · rw [Run.bind_of_exhausted f hx]
      exact Or.inl rfl
    · rw [Run.bind_of_fault f hx]
      exact Or.inr ⟨activity, rfl⟩
  · have hy : y m = (o, m₁) := by rw [← heq, hx]
    cases o with
    | value a =>
      rw [Run.bind_of_value f hx, Run.bind_of_value g hy]
      exact hf a m₁
    | fault e =>
      rw [Run.bind_of_fault f hx, Run.bind_of_fault g hy]
      exact Or.inr rfl
    | exhausted =>
      rw [Run.bind_of_exhausted f hx, Run.bind_of_exhausted g hy]
      exact Or.inr rfl

/-- Going on in the same way with an approximation gives an approximation. -/
theorem bind_left (f : α → Run β) (h : x.Approx y) : (x >>= f).Approx (y >>= f) :=
  h.bind fun a => refl (f a)

/-- Turning the depth limit into a fault keeps an approximation. -/
theorem guard (activity : Activity) (h : x.Approx y) :
    (x.guard activity).Approx (y.guard activity) := by
  intro m
  rcases h m with hcut | heq
  · left
    show (Outcome.ofExcept ((x m).1.toExcept activity)).CutOff
    rcases hcut with hcut | ⟨deeper, hcut⟩
    · rw [hcut]
      exact Or.inr ⟨activity, rfl⟩
    · rw [hcut]
      exact Or.inr ⟨deeper, rfl⟩
  · right
    simp only [Run.guard, heq]

end Run.Approx

/-- Sequences of three runs can be split at either place. -/
theorem Run.bind_assoc {α β γ : Type} (x : Run α) (f : α → Run β) (g : β → Run γ) :
    ((x >>= f) >>= g) = (x >>= fun a => f a >>= g) := by
  funext m
  rcases hx : x m with ⟨o, m₁⟩
  cases o with
  | value a =>
    rw [Run.bind_of_value _ hx]
    rcases hf : f a m₁ with ⟨o', m₂⟩
    have hseq : (x >>= f) m = (o', m₂) := by rw [Run.bind_of_value f hx, hf]
    cases o' with
    | value b => rw [Run.bind_of_value g hseq, Run.bind_of_value g hf]
    | fault e => rw [Run.bind_of_fault g hseq, Run.bind_of_fault g hf]
    | exhausted => rw [Run.bind_of_exhausted g hseq, Run.bind_of_exhausted g hf]
  | fault e => rw [Run.bind_of_fault _ hx, Run.bind_of_fault g (Run.bind_of_fault f hx)]
  | exhausted =>
    rw [Run.bind_of_exhausted _ hx, Run.bind_of_exhausted g (Run.bind_of_exhausted f hx)]

/-! ## Reports and faults -/

variable {n m : Nat}

theorem Event.message_approx (h : n ≤ m) (e : Event) : (e.message n).Approx (e.message m) := by
  cases e with
  | readForm form | parsed form => exact (form.describe_approx h).bind_left _
  | applied formals args => exact (titleAll_approx h formals).bind_left _
  | _ => exact .refl _

theorem Run.report_approx (h : n ≤ m) (e : Event) :
    (Run.report n e).Approx (Run.report m e) := by
  intro machine
  unfold Run.report
  by_cases hk : machine.log.keeps e.level = true
  · rw [if_pos hk, if_pos hk]
    rcases e.message_approx h with hcut | heq
    · rw [hcut]
      exact Or.inl (Or.inl rfl)
    · rw [heq]
      exact Or.inr rfl
  · rw [if_neg hk, if_neg hk]
    exact Or.inr rfl

theorem Run.faultShowing_approx {α : Type} (h : n ≤ m) (v : Value) (make : String → Fault) :
    (Run.faultShowing n v make : Run α).Approx (Run.faultShowing m v make) :=
  (Run.Approx.lift (v.describe_approx h)).bind_left _

/-! ## Evaluation -/

/-- The first way to evaluate approximates the second, on every form and in every frame. -/
def Evaluator.Approx (ev ev' : Evaluator) : Prop :=
  ∀ form i, (ev form i).Approx (ev' form i)

variable {ev ev' : Evaluator}

theorem evalAll_approx (hev : Evaluator.Approx ev ev') (i : FrameId) (forms : List Value) :
    (evalAll ev i forms).Approx (evalAll ev' i forms) := by
  induction forms with
  | nil => exact .refl _
  | cons form forms ih => exact (hev form i).bind fun v => ih.bind_left _

theorem evalLast_approx (hev : Evaluator.Approx ev ev') (i : FrameId) (last : Value)
    (forms : List Value) : (evalLast ev i last forms).Approx (evalLast ev' i last forms) := by
  induction forms generalizing last with
  | nil => exact .refl _
  | cons form forms ih => exact (hev form i).bind fun v => ih v

/-- The rule of a keyword with more depth comes to the same, unless it was cut off. -/
theorem Keyword.run_approx (h : n ≤ m) (hev : Evaluator.Approx ev ev') (k : Keyword)
    (ops : List Value) (i : FrameId) : (k.run n ev ops i).Approx (k.run m ev' ops i) := by
  cases k with
  | quote => exact .refl _
  | cond =>
    match ops with
    | [test, yes] =>
      refine (hev test i).bind fun v => ?_
      split
      · exact hev yes i
      · exact .refl _
    | [test, yes, other] =>
      refine (hev test i).bind fun v => ?_
      split
      · exact hev yes i
      · exact hev other i
    | [] | [_] | _ :: _ :: _ :: _ :: _ => exact .refl _
  | assign | define =>
    match ops with
    | [target, form] =>
      cases target with
      | symbol x => exact (hev form i).bind_left _
      | _ => exact Run.faultShowing_approx h _ _
    | [] => exact .refl _
    | [target] | target :: _ :: _ :: _ => cases target <;> exact .refl _
  | lambda =>
    match ops with
    | params :: form :: forms =>
      cases params with
      | list id formals =>
        simp only [Keyword.run, Keyword.runLambda]
        split
        · exact (Run.report_approx h _).bind_left _
        · exact Run.faultShowing_approx h _ _
      | _ => exact Run.faultShowing_approx h _ _
    | [] | [_] => exact .refl _
  | begin => exact evalLast_approx hev i _ ops

theorem Scope.makeFor_approx (h : n ≤ m) (formals args : List Value) (captured : FrameId) :
    (Scope.makeFor n formals args captured).Approx (Scope.makeFor m formals args captured) := by
  unfold Scope.makeFor Scope.make
  split
  · split
    · exact .refl _
    · split
      · exact .refl _
      · exact Run.faultShowing_approx h _ _
  · exact .refl _

/-- An application with more depth comes to the same, unless it was cut off. -/
theorem apply_approx (h : n ≤ m) (hev : Evaluator.Approx ev ev') (v : Value) (args : List Value) :
    (apply n ev v args).Approx (apply m ev' v args) := by
  cases v with
  | closure id formals body captured =>
    refine (Scope.makeFor_approx h formals args captured).bind fun i => ?_
    exact (Run.report_approx h _).bind fun _ => hev body i
  | primitive p home =>
    exact (Run.Approx.refl _).bind fun id => .lift (Primitive.call_approx h id p args)
  | _ => exact Run.faultShowing_approx h _ _

/-- One step of evaluation with more depth comes to the same, unless it was cut off. -/
theorem evalStep_approx (h : n ≤ m) {deeper deeper' : Nat → Evaluator}
    (hdeep : ∀ k, Evaluator.Approx (deeper k) (deeper' k)) :
    Evaluator.Approx (evalStep n deeper) (evalStep m deeper') := by
  intro form i
  cases form with
  | list id items =>
    cases items with
    | nil => exact Run.faultShowing_approx h _ _
    | cons head operands =>
      simp only [evalStep]
      cases head.keyword? with
      | some k =>
        refine (Run.report_approx h _).bind fun _ => ?_
        exact k.run_approx (Nat.sub_le_sub_right h 1) (hdeep 1) operands i
      | none =>
        refine (hdeep 1 head i).bind fun procedure => ?_
        refine (evalAll_approx (hdeep 1) i operands).bind fun args => ?_
        exact apply_approx (Nat.sub_le_sub_right h 2) (hdeep 2) procedure args
  | _ => exact .refl _

/-- Evaluation with more depth comes to the same, unless it was cut off. -/
theorem eval_approx (h : n ≤ m) : Evaluator.Approx (eval n) (eval m) := by
  -- A step may go one or two units deeper, so the hypothesis must hold for all smaller limits.
  induction n using Nat.strongRecOn generalizing m with
  | ind n ih =>
    match n, m with
    | 0, _ =>
      simp only [eval]
      exact fun form i => .exhausted _
    | n + 1, m + 1 =>
      have hle : n ≤ m := Nat.le_of_succ_le_succ h
      simp only [eval]
      exact evalStep_approx hle fun k => ih (n - k) (by omega) (Nat.sub_le_sub_right hle k)

theorem evaluate_approx (h : n ≤ m) (form : Value) (i : FrameId) :
    (evaluate n form i).Approx (evaluate m form i) :=
  (eval_approx h form i).guard .evaluating

/-! ## Printing -/

mutual

theorem Value.print_approx {n m : Nat} (h : n ≤ m) (v : Value) :
    (v.print n).Approx (v.print m) := by
  match v with
  | .noValue | .bool _ | .int _ | .symbol _ | .primitive .. | .text _ =>
    simp only [Value.print]
    exact .refl _
  | .list _ items =>
    match n, m with
    | 0, _ =>
      simp only [Value.print]
      exact .exhausted _
    | n + 1, m + 1 =>
      simp only [Value.print]
      exact (printAll_approx (Nat.le_of_succ_le_succ h) items).bind_left _
  | .closure _ formals _ _ =>
    match n, m with
    | 0, _ =>
      simp only [Value.print]
      exact .exhausted _
    | n + 1, m + 1 =>
      simp only [Value.print]
      exact (titleAll_approx (Nat.le_of_succ_le_succ h) formals).bind_left _

theorem printAll_approx {n m : Nat} (h : n ≤ m) (vs : List Value) :
    (printAll n vs).Approx (printAll m vs) := by
  match vs with
  | [] =>
    simp only [printAll]
    exact .refl _
  | v :: vs =>
    simp only [printAll]
    exact (v.print_approx h).bind fun _ => (printAll_approx h vs).bind_left _

end

/-- A printed text with more depth is the same, unless printing was cut off. -/
theorem Value.printed_approx (h : n ≤ m) (v : Value) :
    (Run.ofExcept (v.printed n)).Approx (Run.ofExcept (v.printed m)) := by
  rcases v.print_approx h with hcut | heq
  · rw [Value.printed, hcut]
    exact .tooDeep .printing _
  · rw [Value.printed, Value.printed, heq]
    exact .refl _

/-! ## Reading -/

namespace TokenStream

/-- Reading a form with more depth comes to the same, unless it was cut off. -/
theorem parseFrom_approx (h : n ≤ m) (pending : List (List Value)) (s : TokenStream) :
    (s.parseFrom n pending).1 = .exhausted ∨ s.parseFrom n pending = s.parseFrom m pending := by
  generalize hts : s.remaining = ts
  induction ts generalizing pending s with
  | nil =>
    rw [parseFrom_nil hts, parseFrom_nil hts]
    exact Or.inr rfl
  | cons t r ih =>
    obtain ⟨-, hnext⟩ := advance_of_remaining_cons hts
    -- After a form inside a list, reading goes on among the tokens that are left.
    have haccept : ∀ rest v, (accept n rest v s.advance.2).1 = .exhausted ∨
        accept n rest v s.advance.2 = accept m rest v s.advance.2 := by
      intro rest v
      cases rest with
      | nil => exact Or.inr rfl
      | cons items rest => exact ih _ _ hnext
    rw [parseFrom_cons hts, parseFrom_cons hts]
    split
    · cases pending with
      | nil => exact Or.inr rfl
      | cons items rest => exact haccept rest _
    · by_cases hn : n ≤ pending.length
      · rw [if_pos hn]
        exact Or.inl rfl
      · have hm : ¬ m ≤ pending.length := by omega
        rw [if_neg hn, if_neg hm]
        split
        · exact ih _ _ hnext
        · split
          · exact Or.inr rfl
          · exact haccept pending _

/-- Reading a form, where being cut off is a fault. -/
theorem read_approx (h : n ≤ m) (s : TokenStream) :
    (s.read n).1 = .error (.tooDeep .reading) ∨ s.read n = s.read m := by
  unfold read parse
  rcases parseFrom_approx h [] s with hcut | heq
  · left
    simp only [hcut]
    rfl
  · right
    rw [heq]

/-- A form that cannot be read ends the reading. -/
theorem readAll_of_error {limit : Nat} {s s' : TokenStream} {f : Fault} (hs : s.remaining ≠ [])
    (h : s.peek.2.read limit = (.error f, s')) : s.readAll limit = ⟨[], some f⟩ := by
  rw [readAll]
  split
  · rename_i hnone
    rw [peek_fst, List.head?_eq_none_iff] at hnone
    exact absurd hnone hs
  · split <;> simp_all

/-- Reading all forms with more depth gives the same forms and the same failure, or reading was cut
off, and then the forms before that are read with more depth as well. -/
theorem readAll_approx (h : n ≤ m) (s : TokenStream) :
    s.readAll n = s.readAll m ∨ (s.readAll n).failure = some (.tooDeep .reading) ∧
      (s.readAll n).forms <+: (s.readAll m).forms := by
  -- A form that is read takes a token, so fewer tokens are left for the forms after it.
  induction hlen : s.remaining.length using Nat.strongRecOn generalizing s with
  | ind k ih =>
    by_cases hs : s.remaining = []
    · rw [readAll_of_nil hs, readAll_of_nil hs]
      exact Or.inl rfl
    · rcases hread : s.peek.2.read n with ⟨r, s'⟩
      cases r with
      | error f =>
        rw [readAll_of_error hs hread]
        rcases read_approx h s.peek.2 with hcut | heq
        · rw [hread] at hcut
          cases hcut
          exact Or.inr ⟨rfl, List.nil_prefix⟩
        · rw [readAll_of_error hs (heq ▸ hread)]
          exact Or.inl rfl
      | ok v =>
        have heq : s.peek.2.read n = s.peek.2.read m := by
          refine (read_approx h s.peek.2).resolve_left fun hcut => ?_
          rw [hread] at hcut
          cases hcut
        have hshort : s'.remaining.length < k := by
          rw [← hlen]
          simpa using length_remaining_of_read hread
        rw [readAll_of_read hs hread, readAll_of_read hs (heq ▸ hread)]
        rcases ih _ hshort s' rfl with hsame | ⟨hfailure, hforms⟩
        · rw [hsame]
          exact Or.inl rfl
        · exact Or.inr ⟨hfailure, List.prefix_cons_inj v |>.2 hforms⟩

/-- Reading forms in turn from a stream, each after a look at its first token, gives these forms and
leaves this stream. -/
inductive Yields (limit : Nat) : TokenStream → List Value → TokenStream → Prop where
  | nothing {s : TokenStream} : Yields limit s [] s
  | form {s s₁ s₂ : TokenStream} {v : Value} {vs : List Value} :
      s.peek.2.read limit = (.ok v, s₁) → Yields limit s₁ vs s₂ → Yields limit s (v :: vs) s₂

/-- Where the reading of a form is cut off, reading all forms ends with the fault of that. -/
theorem Yields.readAll_of_exhausted {limit : Nat} {s s' : TokenStream} {forms : List Value}
    (h : Yields limit s forms s') (hcut : (s'.peek.2.parse limit).1 = .exhausted) :
    s.readAll limit = ⟨forms, some (.tooDeep .reading)⟩ := by
  induction h with
  | @nothing s =>
    have hs : s.remaining ≠ [] := by
      intro hnil
      rw [parse, parseFrom_nil (by rw [remaining_peek, hnil])] at hcut
      cases hcut
    have hread : s.peek.2.read limit = (.error (.tooDeep .reading), (s.peek.2.parse limit).2) := by
      simp only [read, hcut]
      rfl
    exact readAll_of_error hs hread
  | @form s s₁ s₂ v vs hread _ ih =>
    have hs : s.remaining ≠ [] := by
      intro hnil
      have := length_remaining_of_read hread
      simp [hnil] at this
    rw [readAll_of_read hs hread, ih hcut]

end TokenStream

/-! ## Sources -/

theorem evalForms_append (limit : Nat) (i : FrameId) (last : Value) (forms more : List Value) :
    evalForms limit i last (forms ++ more) =
      evalForms limit i last forms >>= fun v => evalForms limit i v more := by
  induction forms generalizing last with
  | nil => rfl
  | cons form forms ih =>
    simp only [List.cons_append, evalForms, Run.bind_assoc]
    congr 1
    funext _
    congr 1
    funext v
    exact ih v

theorem evalForms_approx (h : n ≤ m) (i : FrameId) (last : Value) (forms : List Value) :
    (evalForms n i last forms).Approx (evalForms m i last forms) := by
  induction forms generalizing last with
  | nil => exact .refl _
  | cons form forms ih =>
    refine (Run.report_approx h _).bind fun _ => ?_
    exact (evaluate_approx h form i).bind fun v => ih v

/-- Evaluating a source with more depth comes to the same, unless it was cut off. -/
theorem evalSource_approx (h : n ≤ m) (source : String) (i : FrameId) :
    (evalSource n source i).Approx (evalSource m source i) := by
  unfold evalSource
  rcases (TokenStream.ofSource source).readAll_approx h with hsame | ⟨hfailure, more, hmore⟩
  · have hsame' : readForms n source = readForms m source := hsame
    rw [hsame']
    exact (evalForms_approx h i _ _).bind_left _
  · -- Reading was cut off behind the forms that were read: either one of them fails, and then it does
    -- so with more depth too, or the turn comes to the form that could not be read.
    have hfailure' : (readForms n source).failure = some (.tooDeep .reading) := hfailure
    have hmore' : (readForms n source).forms ++ more = (readForms m source).forms := hmore
    simp only [hfailure', ← hmore', evalForms_append, Run.bind_assoc]
    exact (evalForms_approx h i _ _).bind fun v => .tooDeep .reading _

/-- Running a source with more depth comes to the same, unless it was cut off. -/
theorem Session.run_approx (h : n ≤ m) (s : Session) (source : String) :
    (s.run n source).Approx (s.run m source) :=
  (evalSource_approx h source s.global).bind fun v => v.printed_approx h

/-- A form that comes to a place too deep to evaluate ends the evaluation of its source. -/
theorem evalForms_of_overruns {limit : Nat} {i : FrameId} {last form : Value} {later : List Value}
    {machine machine' : Machine}
    (hreport : Run.report limit (.readForm form) machine = (.value (), machine'))
    (hover : Overruns limit form i machine') :
    evalForms limit i last (form :: later) machine =
      (.fault (.tooDeep .evaluating), (eval limit form i machine').2) := by
  have hcut : (eval limit form i machine').1 = .exhausted := (placesKnown limit form i machine').2 hover
  have hguard : evaluate limit form i machine' =
      (.fault (.tooDeep .evaluating), (eval limit form i machine').2) := by
    simp only [evaluate, Run.guard, hcut]
    rfl
  rw [evalForms, Run.bind_of_value _ hreport, Run.bind_of_fault _ hguard]

/-- What fails when a source is evaluated fails when it is run. -/
theorem Session.run_of_eval_fault {limit : Nat} {s : Session} {source : String} {f : Fault}
    {machine machine' : Machine} (h : s.eval limit source machine = (.fault f, machine')) :
    s.run limit source machine = (.fault f, machine') :=
  Run.bind_of_fault _ h

/-- **The depth limit is seen only as a fault of its own.** Let a source be run on any machine under
any limit. The run is never cut off without an answer. If it ends with a text, or with a fault that is
not of the kind of the limit, then it ends in the same way and leaves the same machine under every
larger limit. And wherever the limit is reached, the run ends there with the fault that names the
activity: reading, when the forms before have been evaluated; evaluating, at whatever place inside the
form that was; or printing. -/
theorem Session.run_limit (s : Session) (source : String) (m : Machine) (limit : Nat) :
    (∃ r m', s.run limit source m = (Outcome.ofExcept r, m')) ∧
    (∀ r m', s.run limit source m = (Outcome.ofExcept r, m') →
      (∀ f, r = .error f → f.kind ≠ .tooDeep) →
      ∀ more, limit ≤ more → s.run more source m = (Outcome.ofExcept r, m')) ∧
    (∀ forms stream v m', (TokenStream.ofSource source).Yields limit forms stream →
      evalForms limit s.global .noValue forms m = (.value v, m') →
      (stream.peek.2.parse limit).1 = .exhausted →
      s.run limit source m = (.fault (.tooDeep .reading), m')) ∧
    (∀ forms form later v m₁ m₂, (readForms limit source).forms = forms ++ form :: later →
      evalForms limit s.global .noValue forms m = (.value v, m₁) →
      Run.report limit (.readForm form) m₁ = (.value (), m₂) → Overruns limit form s.global m₂ →
      s.run limit source m =
        (.fault (.tooDeep .evaluating), (Lisplet.eval limit form s.global m₂).2)) ∧
    ∀ v m', s.eval limit source m = (.value v, m') → v.print limit = .exhausted →
      s.run limit source m = (.fault (.tooDeep .printing), m') := by
  refine ⟨s.run_concludes limit source m, ?_, ?_, ?_, ?_⟩
  · intro r m' hrun hkind more hle
    rcases s.run_approx hle source m with hcut | hsame
    · rw [hrun] at hcut
      rcases hcut with hcut | ⟨activity, hcut⟩
      · exact absurd hcut (Outcome.ofExcept_ne_exhausted r)
      · have hr : r = .error (.tooDeep activity) := Outcome.ofExcept_injective hcut
        exact absurd rfl (hkind _ hr)
    · rw [← hsame, hrun]
  · intro forms stream v m' hyields hforms hcut
    have hread : readForms limit source = ⟨forms, some (.tooDeep .reading)⟩ :=
      hyields.readAll_of_exhausted hcut
    apply run_of_eval_fault
    rw [Session.eval, evalSource, hread, Run.bind_of_value _ hforms]
    rfl
  · intro forms form later v m₁ m₂ hread hforms hreport hover
    apply run_of_eval_fault
    rw [Session.eval, evalSource, hread, evalForms_append]
    apply Run.bind_of_fault
    rw [Run.bind_of_value _ hforms]
    exact evalForms_of_overruns hreport hover
  · intro v m' heval hcut
    have hprinted : v.printed limit = .error (.tooDeep .printing) := by
      rw [Value.printed, hcut]
      rfl
    rw [Session.run, Run.bind_of_value _ heval, hprinted]
    rfl

/-- The list of the list of the empty list. -/
private def tower : Value :=
  .list (some 2) [.list (some 1) [.list (some 0) []]]

/-- A machine with one global frame, in which `x` is that list, after some more objects. -/
private def towerMachine (objects : Nat) : Machine :=
  ⟨⟨#[⟨("x", tower) :: Store.standardBindings 0, none⟩], objects⟩, Log.new .warning⟩

/-- Comparing `x` with the list of `x` takes six units of depth: with more, the answer is the same, and
with five the comparison is cut off. -/
theorem Session.run_limit_tower :
    (∀ more, 6 ≤ more →
      (Session.mk 0).run more "(= x (list x))" (towerMachine 3) = (.value "#f", towerMachine 5)) ∧
    (Session.mk 0).run 5 "(= x (list x))" (towerMachine 3) =
      (.fault (.tooDeep .evaluating), towerMachine 5) := by
  let form : Value :=
    .literal [.symbol "=", .symbol "x", .literal [.symbol "list", .symbol "x"]]
  obtain ⟨-, hmore, -⟩ := Session.run_limit ⟨0⟩ "(= x (list x))" (towerMachine 3) 6
  obtain ⟨-, -, -, hover, -⟩ := Session.run_limit ⟨0⟩ "(= x (list x))" (towerMachine 3) 5
  constructor
  · apply hmore (.ok "#f") (towerMachine 5)
    · with_unfolding_all rfl
    · intro f hf
      cases hf
  · have hread : (readForms 5 "(= x (list x))").forms = [] ++ form :: [] := by
      with_unfolding_all rfl
    -- Both items have their values by then, and the call has two units left for lists of depth three.
    have hitems : evalAll (Lisplet.eval 3) 0
        [.symbol "=", .symbol "x", .literal [.symbol "list", .symbol "x"]] (towerMachine 3) =
        (.value [.primitive .eqNumber 0, tower, .list (some 3) [tower]], towerMachine 4) := by
      with_unfolding_all rfl
    have hplace : Overruns 5 form 0 (towerMachine 3) := .call rfl hitems (.primitive rfl)
    refine (hover [] form [] .noValue _ _ hread rfl rfl hplace).trans ?_
    with_unfolding_all rfl

end Lisplet
