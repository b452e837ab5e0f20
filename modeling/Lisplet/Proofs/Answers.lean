import Lisplet.Proofs.JsonDepth
import Lisplet.Proofs.Reading
import Lisplet.Proofs.Run
import Lisplet.Server

/-!
# Which lines are answered

A line gets an answer whatever goes wrong in it: bytes that are no text, a text that is no document,
a document that is no request, code that fails. The one exception are documents that nest beyond the
depth limit. Such a line ends the reading of the request before anything was done.

Main definitions: `IsAnswer`, `NestsBeyond`. Main statement: `Server.answerLine_answers_iff`.
-/

namespace Lisplet

/-! ## Sources -/

theorem evalForms_concludes {limit : Nat} (i : FrameId) {forms : List Value}
    (h : ∀ form ∈ forms, ∃ text, form.describe limit = .value text) (last : Value) :
    (evalForms limit i last forms).Concludes := by
  induction forms generalizing last with
  | nil => exact .pure last
  | cons form forms ih =>
    obtain ⟨⟨text, htext⟩, hforms⟩ := List.forall_mem_cons.1 h
    refine .bind (.report (Event.message_readForm htext)) fun _ => ?_
    -- Evaluation itself turns being cut off into a fault, whatever the form is.
    exact .bind (.guard .evaluating _) fun v => ih hforms v

/-- Evaluating a source is never cut off: reading, evaluating and printing turn the depth limit into
a fault, and the reports of the forms describe what was read under the same limit. -/
theorem evalSource_concludes (limit : Nat) (source : String) (i : FrameId) :
    (evalSource limit source i).Concludes := by
  refine .bind (evalForms_concludes i (fun _ => describe_of_mem_readForms) _) fun v => ?_
  split
  · exact .pure v
  · exact .fault _

theorem Session.run_concludes (limit : Nat) (s : Session) (source : String) :
    (s.run limit source).Concludes :=
  .bind (evalSource_concludes limit source s.global) fun v => .ofExcept (v.printed limit)

/-- Running a source gives the text of its value. -/
theorem Session.run_of_eval {limit : Nat} {s : Session} {source : String} {v : Value} {text : String}
    {m : Machine} (h : (s.eval limit source m).1 = .value v) (htext : v.printed limit = .ok text) :
    s.run limit source m = (.value text, (s.eval limit source m).2) := by
  have heval : s.eval limit source m = (.value v, (s.eval limit source m).2) := Prod.ext h rfl
  rw [Session.run, Run.bind_of_value _ heval, htext]
  rfl

/-! ## Lines -/

/-- A line with one JSON object that says whether all went well, and holds the result, or the error
and its type. -/
def IsAnswer (text : String) : Prop :=
  ∃ answer : Json, text = String.ofList (answer.write ++ ['\n']) ∧
    ((∃ result : String, answer = .obj [("ok", .bool true), ("result", .str result)]) ∨
      ∃ (error : Json.Letters) (type : String),
        answer = .obj [("ok", .bool false), ("error", .str error), ("type", .str type)])

/-- Bytes that are a text without a byte-order mark, in which a container is opened inside `limit`
others or more before anything else is wrong. -/
def NestsBeyond (limit : Nat) (bytes : List UInt8) : Prop :=
  ∃ cs n, Text.Utf8.decode bytes = .ok cs ∧ cs.head? ≠ some '\ufeff' ∧
    Json.Reaches ⟨.value, []⟩ (Json.lexemes cs) n ∧ limit ≤ n

theorem Response.isAnswer_line (r : Response) : IsAnswer r.line := by
  cases r with
  | success result => exact ⟨_, rfl, .inl ⟨result, rfl⟩⟩
  | failure error label => exact ⟨_, rfl, .inr ⟨error, label, rfl⟩⟩

/-- The response to the result of a run. -/
def Response.ofResult : Except Fault String → Response
  | .ok text => .success text
  | .error f => .failure f.message f.kind.label

/-- A line makes no request only if it nests beyond the limit. -/
theorem Request.ofLine_cases (limit : Nat) (bytes : List UInt8) :
    (NestsBeyond limit bytes ∧ Request.ofLine limit bytes = .exhausted) ∨
      ¬ NestsBeyond limit bytes ∧ ∃ request, Request.ofLine limit bytes = .value request := by
  unfold Request.ofLine
  cases htext : Text.Utf8.decode bytes with
  | error d =>
    refine .inr ⟨?_, _, rfl⟩
    rintro ⟨cs, n, hcs, -⟩
    rw [htext] at hcs
    cases hcs
  | ok cs =>
    have hbeyond : NestsBeyond limit bytes ↔ Json.decode limit cs = .error .tooDeep := by
      rw [Json.decode_eq_tooDeep_iff]
      constructor
      · rintro ⟨cs', n, hcs', hmark, hreach, hle⟩
        obtain rfl : cs = cs' := by simpa [htext] using hcs'
        exact ⟨hmark, n, hreach, hle⟩
      · rintro ⟨hmark, n, hreach, hle⟩
        exact ⟨cs, n, htext, hmark, hreach, hle⟩
    rw [hbeyond]
    -- Every other problem of the document has a message of its own and makes an invalid request.
    dsimp only
    cases hdecode : Json.decode limit cs with
    | error f =>
      cases f with
      | tooDeep => exact .inl ⟨rfl, rfl⟩
      | malformed problem place => exact .inr ⟨by simp, _, rfl⟩
      | longNumeral digits => exact .inr ⟨by simp, _, rfl⟩
    | ok document =>
      cases document with
      | obj fields => exact .inr ⟨by simp, _, rfl⟩
      | _ => exact .inr ⟨by simp, _, rfl⟩

theorem decodeFrom_brackets (pos k : Nat) :
    Text.Utf8.decodeFrom pos (List.replicate k 91) = .ok (List.replicate k '[') := by
  induction k generalizing pos with
  | zero => simp [Text.Utf8.decodeFrom]
  | succ k ih =>
    have hlength : Text.Utf8.lengthOf? 91 = some 1 := by decide
    rw [List.replicate_succ, Text.Utf8.decodeFrom]
    simp only [hlength, ih]
    rfl

/-- There are lines beyond every limit: one bracket more than the limit, and nothing else. -/
theorem nestsBeyond_brackets (limit : Nat) : NestsBeyond limit (List.replicate (limit + 1) 91) := by
  have hreach := Json.reaches_brackets (c := ⟨.value, []⟩) rfl 0 limit
  refine ⟨_, _, decodeFrom_brackets 0 (limit + 1), ?_, hreach, by simp⟩
  simp [List.replicate_succ]

namespace Server

/-- A request to run code is answered with what the run comes to. If the run fails, that is reported,
which changes the log only. -/
theorem respond_eval {limit : Nat} {s : Server} {code : String} {r : Except Fault String}
    {m m₁ : Machine} (h : s.session.run limit code m = (Outcome.ofExcept r, m₁)) :
    ∃ log, s.respond limit (.eval code) m =
      (.value (Response.ofResult r), { m₁ with log := log }) := by
  have hobserve : (s.session.run limit code).observe m = (.value (Outcome.ofExcept r), m₁) := by
    rw [Run.observe, h]
  rw [respond, Run.bind_of_value _ hobserve]
  cases r with
  | ok text => exact ⟨m₁.log, rfl⟩
  | error f =>
    -- The fault is reported as one of the language or of the host, and neither report can fail.
    have hmessage : ∃ text, Event.message limit
        (if f.kind.ofLanguage then .evaluationFailed f else .unexpectedFailure) =
          .value text := by
      split <;> exact ⟨_, rfl⟩
    obtain ⟨text, htext⟩ := hmessage
    obtain ⟨log, hlog⟩ := Run.report_of_message htext m₁
    exact ⟨log, Run.bind_of_value _ hlog⟩

/-- Every request gets a response, on every machine. -/
theorem respond_eq_value (limit : Nat) (s : Server) (request : Request) (m : Machine) :
    ∃ response m', s.respond limit request m = (.value response, m') := by
  cases request with
  | invalid error => exact ⟨.rejected error, m, rfl⟩
  | eval code =>
    obtain ⟨r, m₁, hrun⟩ := s.session.run_concludes limit code m
    obtain ⟨log, hrespond⟩ := respond_eval hrun
    exact ⟨_, _, hrespond⟩

/-- Which lines are answered. In every state of the server a line is answered, by an object with a
result or with an error and its type, exactly if it does not nest beyond the depth limit. A line that
does gets no answer and leaves everything as it was, and there is such a line for every limit. -/
theorem answerLine_answers_iff (limit : Nat) (s : Server) (bytes : List UInt8) (m : Machine) :
    ((∃ text m', s.answerLine limit bytes m = (.value text, m') ∧ IsAnswer text) ↔
      ¬ NestsBeyond limit bytes) ∧
    (NestsBeyond limit bytes → s.answerLine limit bytes m = (.exhausted, m)) ∧
    NestsBeyond limit (List.replicate (limit + 1) 91) := by
  have hnone : NestsBeyond limit bytes → s.answerLine limit bytes m = (.exhausted, m) := by
    intro hbeyond
    rcases Request.ofLine_cases limit bytes with ⟨-, hline⟩ | ⟨hwithin, -⟩
    · rw [answerLine, hline]
      exact Run.bind_of_exhausted _ (Run.lift_apply _ m)
    · exact absurd hbeyond hwithin
  refine ⟨⟨?_, fun hwithin => ?_⟩, hnone, nestsBeyond_brackets limit⟩
  · rintro ⟨text, m', hanswer, -⟩ hbeyond
    rw [hnone hbeyond] at hanswer
    cases hanswer
  · rcases Request.ofLine_cases limit bytes with ⟨hbeyond, -⟩ | ⟨-, request, hline⟩
    · exact absurd hbeyond hwithin
    · obtain ⟨response, m', hresponse⟩ := s.respond_eq_value limit request m
      refine ⟨response.line, m', ?_, response.isAnswer_line⟩
      rw [answerLine, hline, Run.bind_of_value _ (Run.lift_apply _ m),
        Run.bind_of_value _ hresponse]
      rfl

end Server

end Lisplet
