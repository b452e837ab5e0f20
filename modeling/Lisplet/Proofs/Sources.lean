import Lisplet.Proofs.Reading
import Lisplet.Proofs.Simulation
import Lisplet.Session

/-!
# Sources in two stores

A source text holds no frames, closures or identities, so what is read from it is paired with itself
along every pairing in which names stand for themselves. Running one source in paired frames of matched
machines therefore comes to the same: the same text or a fault of the same kind with the same message.

Main statements: `readForms_paired`, `evalSource_simulated`, `Session.run_simulated`.
-/

namespace Lisplet

variable {κ : Pairing} {m n : Machine} {limit : Nat}

/-! ## Reading -/

/-- An atom is paired with itself, and so is the reason why there is none. -/
theorem atom_paired (hname : ∀ x, κ.name x x) (t : String) :
    Outcome.Paired κ (Value.Paired κ) (Outcome.ofExcept (atom t)) (Outcome.ofExcept (atom t)) := by
  unfold atom
  dsimp only
  split
  · exact .value (.symbol (hname _))
  · split
    · exact .fault (Eq.refl _)
    · exact .value .int

namespace TokenStream

/-- What is read is paired with itself, if that is so of the items read so far. -/
theorem parseFrom_paired (hname : ∀ x, κ.name x x) (limit : Nat) (pending : List (List Value))
    (s : TokenStream) (hpending : ∀ items ∈ pending, ∀ v ∈ items, v.Paired κ v) :
    Outcome.Paired κ (Value.Paired κ) (s.parseFrom limit pending).1 (s.parseFrom limit pending).1 := by
  generalize hts : s.remaining = ts
  induction ts generalizing pending s with
  | nil =>
    rw [parseFrom_nil hts]
    exact .fault (Eq.refl _)
  | cons t r ih =>
    obtain ⟨-, hnext⟩ := advance_of_remaining_cons hts
    -- A form that is complete is the answer, or one more item of the innermost list.
    have haccept : ∀ rest v, (∀ items ∈ rest, ∀ v ∈ items, v.Paired κ v) → v.Paired κ v →
        Outcome.Paired κ (Value.Paired κ) (accept limit rest v s.advance.2).1
          (accept limit rest v s.advance.2).1 := by
      intro rest v hrest hv
      cases rest with
      | nil => exact .value hv
      | cons items rest =>
        obtain ⟨hitems, hrest⟩ := List.forall_mem_cons.1 hrest
        apply ih _ _ _ hnext
        exact List.forall_mem_cons.2 ⟨List.forall_mem_cons.2 ⟨hv, hitems⟩, hrest⟩
    rw [parseFrom_cons hts]
    split
    · cases pending with
      | nil => exact .fault (Eq.refl _)
      | cons items rest =>
        obtain ⟨hitems, hrest⟩ := List.forall_mem_cons.1 hpending
        apply haccept rest _ hrest
        refine .list .none (allPaired_iff.2 (List.forall₂_same.2 fun v hv => ?_))
        exact hitems v (List.mem_reverse.1 hv)
    · split
      · exact .exhausted
      · split
        · apply ih _ _ _ hnext
          exact List.forall_mem_cons.2 ⟨by simp, hpending⟩
        · have hatom := atom_paired hname t
          cases hat : atom t with
          | error f =>
            rw [hat] at hatom
            exact hatom
          | ok v =>
            rw [hat] at hatom
            cases hatom with
            | value hv => exact haccept pending v hpending hv

theorem read_paired (hname : ∀ x, κ.name x x) (limit : Nat) (s : TokenStream) :
    Outcome.Paired κ (Value.Paired κ) (Outcome.ofExcept (s.read limit).1)
      (Outcome.ofExcept (s.read limit).1) := by
  have hparse := parseFrom_paired hname limit [] s (by simp)
  show Outcome.Paired κ _ (Outcome.ofExcept ((s.parseFrom limit []).1.toExcept .reading))
    (Outcome.ofExcept ((s.parseFrom limit []).1.toExcept .reading))
  generalize (s.parseFrom limit []).1 = o at hparse
  cases o with
  | value v => exact hparse
  | fault f => exact hparse
  | exhausted => exact .fault (Eq.refl _)

end TokenStream

/-- All that is read from a source is paired with itself. -/
theorem readForms_paired (hname : ∀ x, κ.name x x) (limit : Nat) (source : String) :
    AllPaired κ (readForms limit source).forms (readForms limit source).forms ∧
      ∀ f, (readForms limit source).failure = some f → f.Paired κ f := by
  unfold readForms
  generalize TokenStream.ofSource source = s
  fun_induction TokenStream.readAll limit s with
  | case1 s hnone => exact ⟨.nil, fun f hf => by cases hf⟩
  | case2 s t hsome f s' hread =>
    refine ⟨.nil, fun f' hf => ?_⟩
    cases hf
    have hpaired := TokenStream.read_paired hname limit s.peek.2
    rw [hread] at hpaired
    cases hpaired with
    | fault hf => exact hf
  | case3 s t hsome v s' hread hlen later ih =>
    have hpaired := TokenStream.read_paired hname limit s.peek.2
    rw [hread] at hpaired
    cases hpaired with
    | value hv => exact ⟨.cons hv ih.1, ih.2⟩

/-! ## Evaluating -/

variable {i j : FrameId}

/-- Evaluating paired forms in turn comes to the same. -/
theorem evalForms_simulated {last last' : Value} {forms forms' : List Value} (h : Matched κ m n)
    (hlast : last.Paired (κ.within m.store) last')
    (hforms : AllPaired (κ.within m.store) forms forms') (hij : (κ.within m.store).frame i j) :
    Simulated κ Value.Paired m (evalForms limit i last forms m)
      (evalForms limit j last' forms' n) := by
  induction forms generalizing forms' last last' m n with
  | nil =>
    cases hforms
    exact .pure h hlast
  | cons form forms ih =>
    cases hforms with
    | @cons _ form' _ _ hform hforms =>
      have hmessage : Outcome.Paired (κ.within m.store) κ.Alike
          ((Event.readForm form).message limit) ((Event.readForm form').message limit) :=
        (hform.describe limit).bind fun s s' hs => .value (hs.map _)
      refine (Simulated.report h hmessage rfl).bind fun _ _ m₁ n₁ h₁ hsteps _ => ?_
      have hij₁ := hsteps.le.frame hij
      refine (evaluate_simulates κ limit h₁ (hform.mono hsteps.le) hij₁).bind
        fun v w m₂ n₂ h₂ hsteps' hv => ?_
      exact ih h₂ hv ((hforms.mono hsteps.le).mono hsteps'.le) (hsteps'.le.frame hij₁)

/-- Evaluating one source in paired frames comes to the same. -/
theorem evalSource_simulated (hname : ∀ x, κ.name x x) (source : String) (h : Matched κ m n)
    (hij : (κ.within m.store).frame i j) :
    Simulated κ Value.Paired m (evalSource limit source i m) (evalSource limit source j n) := by
  obtain ⟨hforms, -⟩ := readForms_paired (κ := κ.within m.store) hname limit source
  refine (evalForms_simulated h .noValue hforms hij).bind fun v w m₁ n₁ h₁ _ hv => ?_
  obtain ⟨-, hfailure⟩ := readForms_paired (κ := κ.within m₁.store) hname limit source
  cases hf : (readForms limit source).failure with
  | none => exact .pure h₁ hv
  | some f => exact .lift h₁ (.fault (hfailure f hf))

namespace Session

variable {s t : Session}

theorem eval_simulated (hname : ∀ x, κ.name x x) (source : String) (h : Matched κ m n)
    (hst : (κ.within m.store).frame s.global t.global) :
    Simulated κ Value.Paired m (s.eval limit source m) (t.eval limit source n) :=
  evalSource_simulated hname source h hst

/-- Running one source in sessions with paired global frames comes to the same. -/
theorem run_simulated (hname : ∀ x, κ.name x x) (source : String) (h : Matched κ m n)
    (hst : (κ.within m.store).frame s.global t.global) :
    Simulated κ (fun κ => κ.Alike) m (s.run limit source m) (t.run limit source n) := by
  refine (eval_simulated hname source h hst).bind fun v w m₁ n₁ h₁ _ hv => .lift h₁ ?_
  have hprint := hv.print limit
  unfold Value.printed
  generalize v.print limit = o at hprint ⊢
  generalize w.print limit = o' at hprint ⊢
  cases hprint with
  | value hs => exact .value (hs.map String.ofList)
  | fault he => exact .fault he
  | exhausted => exact .fault (Eq.refl _)

end Session

end Lisplet
