import Lisplet.Proofs.Logging
import Lisplet.Server

/-!
# Log levels do not interfere

The level of the log decides what is recorded and nothing else. Two runs of one task from the same store,
under a lower and a higher level, end alike and leave the same store, and what the run under the higher
level records is what the other one records, without the records below the higher level.

That holds because nothing that is reported on the way can fail to be rendered: a form that was read under
a limit can be described under it, the names of keywords are texts, and a closure is reported only when
its parameters are symbols.

Main definitions: `Log.Views`, `Run.LevelBlind`. Main statements: `Run.LevelBlind.of_oblivious`,
`log_levels_inert`.
-/

namespace Lisplet

/-! ## Two logs of one run -/

/-- The records that a level keeps. -/
def Level.kept (l : Level) (records : Array LogRecord) : Array LogRecord :=
  records.filter fun r => l.effective.rank ≤ r.level.rank

/-- Two logs with the levels `lo` and `hi`, which held `before` and `before'` when something began to be
recorded in both: since then the second one has got what its level keeps of what the first one has got. -/
def Log.Views (lo hi : Level) (before before' : Array LogRecord) (log log' : Log) : Prop :=
  ∃ emitted, log = ⟨lo, before ++ emitted⟩ ∧ log' = ⟨hi, before' ++ hi.kept emitted⟩

/-- Both logs go on to be so, whatever is noted in both of them. -/
theorem Log.Views.stable {lo hi : Level} (hle : lo.effective.rank ≤ hi.effective.rank)
    (before before' : Array LogRecord) : Log.Stable (Log.Views lo hi before before') := by
  rintro _ _ r ⟨emitted, rfl, rfl⟩
  by_cases hlo : lo.effective.rank ≤ r.level.rank
  · refine ⟨emitted.push r, ?_, ?_⟩
    · simp [Log.note, Log.keeps, Log.add, hlo]
    · by_cases hhi : hi.effective.rank ≤ r.level.rank
      · simp [Log.note, Log.keeps, Log.add, Level.kept, hhi]
      · simp [Log.note, Log.keeps, Level.kept, hhi]
  · -- What the lower level does not keep, the higher one does not keep either.
    have hhi : ¬ hi.effective.rank ≤ r.level.rank := fun h => hlo (Nat.le_trans hle h)
    refine ⟨emitted, ?_, ?_⟩
    · simp [Log.note, Log.keeps, hlo]
    · simp [Log.note, Log.keeps, hhi]

/-- From every store, under two levels and whatever has been recorded before, the run has the same outcome
and leaves the same store, and the higher level records what it keeps of what the lower one records. -/
def Run.LevelBlind {α : Type} (x : Run α) : Prop :=
  ∀ (store : Store) (lo hi : Level) (before before' : Array LogRecord),
    lo.effective.rank ≤ hi.effective.rank →
    (x ⟨store, lo, before⟩).1 = (x ⟨store, hi, before'⟩).1 ∧
    (x ⟨store, lo, before⟩).2.store = (x ⟨store, hi, before'⟩).2.store ∧
    ∃ emitted, (x ⟨store, lo, before⟩).2.log = ⟨lo, before ++ emitted⟩ ∧
      (x ⟨store, hi, before'⟩).2.log = ⟨hi, before' ++ hi.kept emitted⟩

/-- A run that does not depend on the log does not depend on its level. -/
theorem Run.LevelBlind.of_oblivious {α : Type} {x : Run α}
    (h : ∀ R, Log.Stable R → x.Oblivious R) : x.LevelBlind := by
  intro store lo hi before before' hle
  have hviews : Log.Views lo hi before before' ⟨lo, before⟩ ⟨hi, before'⟩ := by
    refine ⟨#[], ?_, ?_⟩ <;> simp [Level.kept]
  obtain ⟨houtcome, halike⟩ := h _ (Log.Views.stable hle before before') ⟨store, lo, before⟩
    ⟨store, hi, before'⟩ ⟨rfl, hviews⟩
  exact ⟨houtcome, halike.store, halike.log⟩

/-! ## The first form of a text -/

section Entries

variable {R : Log → Log → Prop} {limit : Nat}

theorem Run.Oblivious.observe {α : Type} {x : Run α} (hx : x.Oblivious R) : x.observe.Oblivious R := by
  intro m n halike
  obtain ⟨houtcome, halike₁⟩ := hx m n halike
  refine ⟨?_, halike₁⟩
  show Outcome.value (x m).1 = Outcome.value (x n).1
  rw [houtcome]

/-- The form that a reader hands out can be described. -/
theorem describe_of_next {r : Reader} {form : Value} (h : (r.next limit).1 = some (.ok form)) :
    ∃ text, form.describe limit = .value text := by
  unfold Reader.next at h
  split at h
  · cases h
  · split at h
    · cases h
    · split at h
      · next hread =>
        cases h
        obtain ⟨hform, hnesting⟩ := TokenStream.read_isForm hread
        exact hform.describe_eq hnesting
      · cases h

theorem parseFirst_oblivious (hR : Log.Stable R) (limit : Nat) (text : String) :
    (parseFirst limit text).Oblivious R := by
  refine (Run.Oblivious.lift _).bind fun form hform => ?_
  obtain ⟨m, m₁, hread⟩ := hform
  have hok : readForm limit text = .ok form := Outcome.ofExcept_injective (congrArg Prod.fst hread)
  obtain ⟨shown, hshown⟩ := describe_of_readForm hok
  exact (Run.Oblivious.report hR (Event.message_parsed hshown)).bind fun _ _ => .pure form

theorem runFirst_oblivious (hR : Log.Stable R) (limit : Nat) (text : String) (i : FrameId) :
    (runFirst limit text i).Oblivious R := by
  refine Run.Oblivious.bind ?_ fun _ _ => .lift _
  refine (parseFirst_oblivious hR limit text).bind fun form _ => ?_
  exact (eval_oblivious hR limit form i).guard .evaluating

theorem Session.runText_oblivious (hR : Log.Stable R) (limit : Nat) (common : Option Session)
    (text : String) (frame : Option FrameId) : (runText limit common text frame).Oblivious R := by
  cases frame with
  | some i => exact (runFirst_oblivious hR limit text i).observe.bind fun _ _ => .pure _
  | none =>
    have hshared : (shared common).Oblivious R := by
      cases common with
      | some s => exact .pure s
      | none => exact (Run.Oblivious.update _).bind fun _ _ => .pure _
    refine hshared.bind fun s _ => ?_
    exact (runFirst_oblivious hR limit text s.global).observe.bind fun _ _ => .pure _

/-! ## Lines -/

theorem Server.respond_oblivious (hR : Log.Stable R) (limit : Nat) (s : Server) (request : Request) :
    (s.respond limit request).Oblivious R := by
  cases request with
  | invalid error => exact .pure _
  | eval code =>
    refine (Session.run_oblivious hR limit s.session code).observe.bind fun o _ => ?_
    cases o with
    | value text => exact .pure _
    | exhausted => exact .lift _
    | fault f =>
      -- Either event has a text of its own or the message of the fault.
      have hmessage : ∃ text, Event.message limit
          (if f.kind.ofLanguage then .evaluationFailed f else .unexpectedFailure) = .value text := by
        split <;> exact ⟨_, rfl⟩
      obtain ⟨text, htext⟩ := hmessage
      exact (Run.Oblivious.report hR htext).bind fun _ _ => .pure _

theorem Server.answerLine_oblivious (hR : Log.Stable R) (limit : Nat) (s : Server) (line : List UInt8) :
    (s.answerLine limit line).Oblivious R := by
  refine (Run.Oblivious.lift _).bind fun request _ => ?_
  exact (s.respond_oblivious hR limit request).bind fun _ _ => .pure _

end Entries

/-! ## Levels -/

/-- **Logging does not interfere.** Running a source in a session, running the first form of a text in a
frame or in the shared session, and answering a line come to the same under every level of the log, and
the records under a higher level are those under a lower one that the higher level keeps. In particular
what is reported on the way can always be rendered: a form that was just read, a keyword, and a closure
whose application has got its frame. -/
theorem log_levels_inert (limit : Nat) :
    (∀ (s : Session) source, (s.run limit source).LevelBlind) ∧
    (∀ text i, (runFirst limit text i).LevelBlind) ∧
    (∀ common text frame, (Session.runText limit common text frame).LevelBlind) ∧
    (∀ (s : Server) line, (s.answerLine limit line).LevelBlind) ∧
    (∀ (r : Reader) form, (r.next limit).1 = some (.ok form) →
      ∃ text, (Event.readForm form).message limit = .value text) ∧
    (∀ source form, form ∈ (readForms limit source).forms →
      ∃ text, (Event.readForm form).message limit = .value text) ∧
    (∀ source form, readForm limit source = .ok form →
      ∃ text, (Event.parsed form).message limit = .value text) ∧
    (∀ k, ∃ text, (Event.keyword k).message limit = .value text) ∧
    ∀ formals args captured m i m', Scope.makeFor limit formals args captured m = (.value i, m') →
      ∃ text, (Event.applied formals args.length).message limit = .value text := by
  refine ⟨fun s source => ?_, fun text i => ?_, fun common text frame => ?_, fun s line => ?_, ?_, ?_, ?_,
    fun k => ⟨_, rfl⟩, ?_⟩
  · exact .of_oblivious fun R hR => Session.run_oblivious hR limit s source
  · exact .of_oblivious fun R hR => runFirst_oblivious hR limit text i
  · exact .of_oblivious fun R hR => Session.runText_oblivious hR limit common text frame
  · exact .of_oblivious fun R hR => s.answerLine_oblivious hR limit line
  · intro r form hnext
    obtain ⟨shown, hshown⟩ := describe_of_next hnext
    exact ⟨_, Event.message_readForm hshown⟩
  · intro source form hmem
    obtain ⟨shown, hshown⟩ := describe_of_mem_readForms hmem
    exact ⟨_, Event.message_readForm hshown⟩
  · intro source form hread
    obtain ⟨shown, hshown⟩ := describe_of_readForm hread
    exact ⟨_, Event.message_parsed hshown⟩
  · intro formals args captured m i m' hmake
    obtain ⟨names, rfl, -⟩ := Scope.makeFor_eq_value hmake
    exact applied_message limit names args.length

/-- A line whose code is a special form that fails: of the three records at the lowest level one is left
at the next. -/
theorem log_levels_inert_failure :
    let line : List UInt8 := [123, 34, 99, 109, 100, 34, 58, 34, 101, 118, 97, 108, 34, 44, 34, 99, 111,
      100, 101, 34, 58, 34, 40, 113, 117, 111, 116, 101, 41, 34, 125]
    let answer : Run String := (Server.mk ⟨"localhost", 0⟩ ⟨0⟩).answerLine 10 line
    let low := answer ⟨Store.empty, .debug, #[]⟩
    let high := answer ⟨Store.empty, .info, #[]⟩
    low.1 = high.1 ∧ low.2.log.records.toList.map (·.level) = [.debug, .debug, .info] ∧
      high.2.log.records = Level.info.kept low.2.log.records := by
  intro line answer low high
  obtain ⟨-, -, -, hline, -⟩ := log_levels_inert 10
  obtain ⟨houtcome, -, emitted, hlow, hhigh⟩ :=
    hline (Server.mk ⟨"localhost", 0⟩ ⟨0⟩) line Store.empty .debug .info #[] #[] (by decide)
  refine ⟨houtcome, by with_unfolding_all rfl, ?_⟩
  have hlow' : low.2.log = ⟨.debug, #[] ++ emitted⟩ := hlow
  have hhigh' : high.2.log = ⟨.info, #[] ++ Level.info.kept emitted⟩ := hhigh
  rw [hlow', hhigh']
  simp

end Lisplet
