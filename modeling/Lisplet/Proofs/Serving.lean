import Lisplet.Proofs.Logging
import Lisplet.Proofs.Wire

/-!
# A server is a session

A server adds nothing to the session that it keeps. The lines that ask to run code run it in the session,
one after the other, and all other lines are refused without any effect. So the state of a server after
any lines is that of a session that was started in the same way and has run the codes of the lines, and
each answer says what the run of its code came to.

All this is about codes that are texts. A `code` may hold half of a surrogate pair, escaped on its own,
and there is no source that it could be.

Main definitions: `askedLetters?`, `askedCode?`, `askedRuns`, `Server.after`. Main statement:
`Server.refines_session`.
-/

namespace Lisplet

/-! ## Requests -/

/-- The letters of the code that a line asks to run. The line is a JSON object, its `cmd` is the string
`eval`, and its `code` is a string, or it has none and asks to run the empty source. -/
def askedLetters? (limit : Nat) (line : List UInt8) : Option Json.Letters :=
  match Text.Utf8.decode line with
  | .error _ => none
  | .ok cs =>
    match Json.decode limit cs with
    | .ok (.obj fields) =>
      match Json.field? fields "cmd", Json.field? fields "code" with
      | some (.str cmd), some (.str code) => if cmd = "eval" then some code else none
      | some (.str cmd), none => if cmd = "eval" then some "" else none
      | _, _ => none
    | _ => none

/-- The code that a line asks to run, if it is a text. -/
def askedCode? (limit : Nat) (line : List UInt8) : Option String :=
  (askedLetters? limit line).bind fun code =>
    if code = Json.textOf code then some (Json.textOf code) else none

theorem askedCode?_eq_some_iff {limit : Nat} {line : List UInt8} {code : String} :
    askedCode? limit line = some code ↔ askedLetters? limit line = some (code : Json.Letters) := by
  unfold askedCode?
  cases askedLetters? limit line with
  | none => simp
  | some letters =>
    simp only [Option.bind_some, Option.ite_none_right_eq_some, Option.some.injEq]
    constructor
    · rintro ⟨hletters, rfl⟩
      exact hletters
    · rintro rfl
      rw [Json.textOf_lettersOf]
      exact ⟨rfl, rfl⟩

/-- The runs that lines ask for, in order. -/
def askedRuns (limit : Nat) (lines : List (List UInt8)) : List Session.Call :=
  (lines.filterMap (askedCode? limit)).map (.run limit)

theorem Json.isText_iff {text : String} {v : Json} : v.isText text = true ↔ v = .str text := by
  cases v <;> simp [Json.isText]

/-- The fields of an object make a request to run code, or one that is refused. -/
theorem Request.ofFields_cases (fields : List (Json.Letters × Json)) :
    (Json.field? fields "cmd" = some (.str "eval") ∧
      ((∃ code, Json.field? fields "code" = some (.str code) ∧
          Request.ofFields fields = .eval (Json.textOf code)) ∨
        (Json.field? fields "code" = none ∧ Request.ofFields fields = .eval "") ∨
        ∃ v, Json.field? fields "code" = some v ∧ (∀ code, v ≠ .str code) ∧
          ∃ error, Request.ofFields fields = .invalid error)) ∨
      Json.field? fields "cmd" ≠ some (.str "eval") ∧
        ∃ error, Request.ofFields fields = .invalid error := by
  unfold Request.ofFields
  dsimp only
  by_cases hcmd : Json.field? fields "cmd" = some (.str "eval")
  · refine Or.inl ⟨hcmd, ?_⟩
    rw [hcmd, Option.getD_some, if_pos (Json.isText_iff.2 rfl)]
    cases hcode : Json.field? fields "code" with
    | none => exact Or.inr (Or.inl ⟨rfl, rfl⟩)
    | some v =>
      cases v with
      | str code => exact Or.inl ⟨code, rfl, rfl⟩
      | _ => exact Or.inr (Or.inr ⟨_, rfl, by simp, _, rfl⟩)
  · refine Or.inr ⟨hcmd, _, if_neg ?_⟩
    rw [Json.isText_iff]
    -- A missing `cmd` counts as null, which is no command either.
    cases hfield : Json.field? fields "cmd" with
    | none => simp
    | some v =>
      intro heq
      rw [Option.getD_some] at heq
      exact hcmd (hfield.trans (congrArg some heq))

/-- What a line asks for is the request that it makes; if it asks for nothing, it is refused or has no
answer at all. -/
theorem ofLine_cases_asked (limit : Nat) (line : List UInt8) :
    (∃ code, askedLetters? limit line = some code ∧
        Request.ofLine limit line = .value (.eval (Json.textOf code))) ∨
      askedLetters? limit line = none ∧ (Request.ofLine limit line = .exhausted ∨
        ∃ error, Request.ofLine limit line = .value (.invalid error)) := by
  unfold askedLetters? Request.ofLine
  cases Text.Utf8.decode line with
  | error d => exact Or.inr ⟨rfl, Or.inr ⟨_, rfl⟩⟩
  | ok cs =>
    dsimp only
    cases Json.decode limit cs with
    | error f =>
      refine Or.inr ⟨rfl, ?_⟩
      cases f with
      | tooDeep => exact Or.inl rfl
      | _ => exact Or.inr ⟨_, rfl⟩
    | ok document =>
      cases document with
      | obj fields =>
        dsimp only
        rcases Request.ofFields_cases fields with
          ⟨hcmd, ⟨code, hcode, hrequest⟩ | ⟨hcode, hrequest⟩ | ⟨v, hcode, hv, error, hrequest⟩⟩ |
            ⟨hcmd, error, hrequest⟩
        · rw [hcmd, hcode, hrequest]
          exact Or.inl ⟨code, rfl, rfl⟩
        · rw [hcmd, hcode, hrequest]
          exact Or.inl ⟨_, rfl, rfl⟩
        · rw [hcmd, hcode, hrequest]
          refine Or.inr ⟨?_, Or.inr ⟨error, rfl⟩⟩
          cases v with
          | str code => exact absurd rfl (hv code)
          | _ => rfl
        · rw [hrequest]
          refine Or.inr ⟨?_, Or.inr ⟨error, rfl⟩⟩
          have hother : ∀ cmd, Json.field? fields "cmd" = some (.str cmd) → ¬ cmd = "eval" := by
            rintro cmd heq rfl
            exact hcmd heq
          split
          · next heq _ => exact if_neg (hother _ heq)
          · next heq _ => exact if_neg (hother _ heq)
          · rfl
      | _ => exact Or.inr ⟨rfl, Or.inr ⟨_, rfl⟩⟩

/-- Every text of a request to run code asks for that code. -/
theorem EncodesRequest.askedCode? {limit : Nat} {code : String} {cs : List Char}
    (h : EncodesRequest code cs) (hlimit : 0 < limit) :
    Lisplet.askedCode? limit (Text.Utf8.encode (String.ofList cs)) = some code := by
  obtain ⟨hbytes, fields, hdecode, hcmd, hcode⟩ := h.decode hlimit
  rw [askedCode?_eq_some_iff, askedLetters?, hbytes]
  simp only [hdecode, hcmd, hcode, if_true]

/-- The value of an outcome, if it has one. -/
def Outcome.value? {α : Type} : Outcome α → Option α
  | .value a => some a
  | _ => none

theorem Outcome.eq_value_of_value? {α : Type} {o : Outcome α} {a : α} (h : o.value? = some a) :
    o = .value a := by
  cases o with
  | value b => exact congrArg Outcome.value (Option.some.inj h)
  | fault f => cases h
  | exhausted => cases h

namespace Server

variable {limit : Nat} {s : Server} {line : List UInt8} {m n : Machine}

/-- A line that asks to run code is answered with what the run comes to, and leaves the store of the
run. -/
theorem answerLine_of_asked {code : String} (h : askedCode? limit line = some code) (m : Machine) :
    ∃ r, (s.session.run limit code m).1 = Outcome.ofExcept r ∧
      (s.answerLine limit line m).1 = .value (Response.ofResult r).line ∧
      (s.answerLine limit line m).2.store = (s.session.run limit code m).2.store := by
  rw [askedCode?_eq_some_iff] at h
  have hline : Request.ofLine limit line = .value (.eval code) := by
    rcases ofLine_cases_asked limit line with ⟨letters, hasked, hline⟩ | ⟨hnone, -⟩
    · rw [h, Option.some.injEq] at hasked
      rw [hline, ← hasked, Json.textOf_lettersOf]
    · rw [h] at hnone
      cases hnone
  obtain ⟨r, m₁, hrun⟩ := s.session.run_concludes limit code m
  obtain ⟨log, hrespond⟩ := respond_eval hrun
  have hanswer : s.answerLine limit line m =
      (.value (Response.ofResult r).line, { m₁ with log := log }) := by
    rw [answerLine, hline, Run.bind_of_value _ (Run.lift_apply _ m), Run.bind_of_value _ hrespond]
    rfl
  exact ⟨r, by rw [hrun], by rw [hanswer], by rw [hanswer, hrun]⟩

/-- A line that asks for no code has no effect, whether it is refused or has no answer. -/
theorem answerLine_of_not_asked (h : askedLetters? limit line = none) (m : Machine) :
    s.answerLine limit line m = (.exhausted, m) ∨
      ∃ error, s.answerLine limit line m = (.value (Response.rejected error).line, m) := by
  rcases ofLine_cases_asked limit line with ⟨_, hasked, -⟩ | ⟨-, hline | ⟨error, hline⟩⟩
  · rw [h] at hasked
    cases hasked
  · left
    rw [answerLine, hline]
    exact Run.bind_of_exhausted _ (Run.lift_apply _ m)
  · refine Or.inr ⟨error, ?_⟩
    rw [answerLine, hline, Run.bind_of_value _ (Run.lift_apply _ m)]
    rfl

/-! ## Lines in turn -/

/-- The machine after lines were given to a server, one after the other. -/
def after (limit : Nat) (s : Server) (lines : List (List UInt8)) (m : Machine) : Machine :=
  lines.foldl (fun m line => (s.answerLine limit line m).2) m

/-- Every code that the lines ask to run is a text. -/
def AskTexts (limit : Nat) (lines : List (List UInt8)) : Prop :=
  ∀ line ∈ lines, ∀ letters, askedLetters? limit line = some letters →
    ∃ code : String, letters = code

theorem AskTexts.askedLetters? {lines : List (List UInt8)} (h : AskTexts limit lines)
    (hmem : line ∈ lines) (hnone : askedCode? limit line = none) :
    Lisplet.askedLetters? limit line = none := by
  cases hletters : Lisplet.askedLetters? limit line with
  | none => rfl
  | some letters =>
    obtain ⟨code, rfl⟩ := h line hmem letters hletters
    rw [askedCode?_eq_some_iff.2 hletters] at hnone
    cases hnone

/-- The server keeps the store that the session would have. -/
theorem store_after {lines : List (List UInt8)} (htexts : AskTexts limit lines)
    (h : m.store = n.store) :
    (s.after limit lines m).store = (s.session.after (askedRuns limit lines) n).store := by
  induction lines generalizing m n with
  | nil => exact h
  | cons line lines ih =>
    have hrest : AskTexts limit lines := fun l hl => htexts l (List.mem_cons_of_mem _ hl)
    cases hasked : askedCode? limit line with
    | some code =>
      obtain ⟨r, -, -, hstore⟩ := answerLine_of_asked (s := s) hasked m
      have hruns : askedRuns limit (line :: lines) = .run limit code :: askedRuns limit lines := by
        simp [askedRuns, hasked]
      rw [hruns]
      -- The run itself does not depend on what the server has logged.
      exact ih hrest (hstore.trans (s.session.run_of_store_eq limit code h).2)
    | none =>
      have hruns : askedRuns limit (line :: lines) = askedRuns limit lines := by
        simp [askedRuns, hasked]
      have hletters := htexts.askedLetters? (List.mem_cons_self ..) hasked
      have hsame : (s.answerLine limit line m).2 = m := by
        rcases answerLine_of_not_asked (s := s) hletters m with hnone | ⟨error, hrefused⟩
        · rw [hnone]
        · rw [hrefused]
      rw [hruns]
      exact ih hrest ((congrArg Machine.store hsame).trans h)

/-- The line of the response to a result carries an object with this text as its result exactly if the
result is this text. -/
theorem carries_result_iff {r : Except Fault String} {text : String} :
    Carries (Response.ofResult r).line (.obj [("ok", .bool true), ("result", .str text)]) ↔
      Outcome.ofExcept r = .value text := by
  cases r with
  | ok t =>
    constructor
    · intro h
      have hobject := (Response.carries_success t).unique h
      simp only [Json.obj.injEq, List.cons.injEq, Prod.mk.injEq, Json.str.injEq,
        Json.lettersOf_inj] at hobject
      exact congrArg Outcome.value hobject.2.1.2
    · intro h
      cases h
      exact Response.carries_success text
  | error f =>
    constructor
    · intro h
      have hobject := (Response.carries_fault f).unique h
      simp at hobject
    · intro h
      cases h

/-- It carries an object with this error and class exactly if the result is a fault with this message and
of this class. -/
theorem carries_fault_iff {r : Except Fault String} {error label : String} :
    Carries (Response.ofResult r).line
        (.obj [("ok", .bool false), ("error", .str error), ("type", .str label)]) ↔
      ∃ f, Outcome.ofExcept r = .fault f ∧ f.message = error ∧ f.kind.label = label := by
  cases r with
  | ok t =>
    constructor
    · intro h
      have hobject := (Response.carries_success t).unique h
      simp at hobject
    · rintro ⟨f, hf, -⟩
      cases hf
  | error f =>
    constructor
    · intro h
      have hobject := (Response.carries_fault f).unique h
      simp only [Json.obj.injEq, List.cons.injEq, Prod.mk.injEq, Json.str.injEq,
        Json.lettersOf_inj] at hobject
      exact ⟨f, rfl, hobject.2.1.2, hobject.2.2.1.2⟩
    · rintro ⟨_, hf, rfl, rfl⟩
      cases hf
      exact Response.carries_fault f

/-- **A server refines a session.** Let a server be started and let any lines be given to it, one after the
other, each of which it answers, where the codes that the lines ask to run are texts. A session that is
started in the same way, and then runs these codes, comes to the same store. The line that answers a line
with a code is decoded as the object with `ok` true and a result exactly if the run of the code in that
session, after the codes of the lines before, gives this result, and as the object with `ok` false, an
error and a type exactly if the run fails with a fault that has this message and is of this class. The line
that answers any other line is decoded as an object with `ok` false, an error and the type
`ProtocolError`, and nothing at all has changed. -/
theorem refines_session {host : Host} {name : Option String} {port : Option Int} {prelude : Prelude}
    {m₀ m₁ : Machine} (hstart : Server.start limit host name port prelude m₀ = (.value s, m₁))
    (lines : List (List UInt8)) (htexts : AskTexts limit lines)
    (hlines : ∀ before line later, lines = before ++ line :: later →
      ∃ text, (s.answerLine limit line (s.after limit before m₁)).1 = .value text) :
    Session.start limit host prelude m₀ = (.value s.session, m₁) ∧
    (s.after limit lines m₁).store = (s.session.after (askedRuns limit lines) m₁).store ∧
    ∀ before line later, lines = before ++ line :: later →
      ∃ sent, (s.answerLine limit line (s.after limit before m₁)).1 = .value sent ∧
        (∀ code, askedCode? limit line = some code →
          (∀ result : String, Carries sent (.obj [("ok", .bool true), ("result", .str result)]) ↔
            (s.session.run limit code (s.session.after (askedRuns limit before) m₁)).1 =
              .value result) ∧
          ∀ error type : String, Carries sent
              (.obj [("ok", .bool false), ("error", .str error), ("type", .str type)]) ↔
            ∃ f, (s.session.run limit code (s.session.after (askedRuns limit before) m₁)).1 = .fault f ∧
              f.message = error ∧ f.kind.label = type) ∧
        (askedCode? limit line = none →
          (∃ error, Carries sent
            (.obj [("ok", .bool false), ("error", .str error), ("type", .str "ProtocolError")])) ∧
          (s.answerLine limit line (s.after limit before m₁)).2 = s.after limit before m₁) := by
  refine ⟨?_, store_after htexts rfl, ?_⟩
  · obtain ⟨_, m₂, haddress, h⟩ := Run.bind_eq_value_iff.1 hstart
    obtain ⟨session, m₃, hsession, hpure⟩ := Run.bind_eq_value_iff.1 h
    cases hpure
    obtain rfl : m₀ = m₂ := congrArg Prod.snd haddress
    exact hsession
  · intro before line later hsplit
    obtain ⟨sent, hsent⟩ := hlines before line later hsplit
    refine ⟨sent, hsent, fun code hasked => ?_, fun hasked => ?_⟩
    · obtain ⟨r, hrun, hanswer, -⟩ := answerLine_of_asked (s := s) hasked (s.after limit before m₁)
      have hbefore : AskTexts limit before := fun l hl => htexts l (by simp [hsplit, hl])
      have hstore := store_after (s := s) hbefore (m := m₁) rfl
      rw [(s.session.run_of_store_eq limit code hstore).1] at hrun
      rw [hanswer] at hsent
      cases hsent
      rw [hrun]
      exact ⟨fun _ => carries_result_iff, fun _ _ => carries_fault_iff⟩
    · have hletters := htexts.askedLetters? (by simp [hsplit]) hasked
      rcases answerLine_of_not_asked (s := s) hletters (s.after limit before m₁) with
        hnone | ⟨error, hrefused⟩
      · rw [hnone] at hsent
        cases hsent
      · rw [hrefused] at hsent ⊢
        cases hsent
        exact ⟨⟨_, Response.carries_failure error Response.protocolLabel⟩, rfl⟩

/-- The bytes of a request to run code. -/
def requestLine (code : String) : List UInt8 :=
  Text.Utf8.encode (String.ofList (requestText Json.escapeRaw code))

theorem askedCode?_requestLine (hlimit : 0 < limit) (code : String) :
    askedCode? limit (requestLine code) = some code :=
  (encodesRequest_requestText Json.escapeRaw_spelling code).askedCode? hlimit

/-- A name is defined by one line and asked for by the next; a source that breaks off and a line that is
no request come behind. -/
theorem refines_session_defined :
    let lines := [requestLine "(define x (quote a))", requestLine "x", requestLine "(f", []]
    let m₁ := (Machine.new .warning).withStandard
    let s : Server := ⟨⟨"localhost", 0⟩, ⟨0⟩⟩
    (s.after 10 lines m₁).store =
        (s.session.after [.run 10 "(define x (quote a))", .run 10 "x", .run 10 "(f"] m₁).store ∧
      (m₁.store.get? 0 "x").isSome = false ∧ ((s.after 10 lines m₁).store.get? 0 "x").isSome = true ∧
      (∃ sent, (s.answerLine 10 (requestLine "x") (s.after 10 (lines.take 1) m₁)).1 = .value sent ∧
        Carries sent (.obj [("ok", .bool true), ("result", .str "a")])) ∧
      (∃ sent, (s.answerLine 10 (requestLine "(f") (s.after 10 (lines.take 2) m₁)).1 = .value sent ∧
        Carries sent (.obj [("ok", .bool false), ("error", .str "unexpected end of input"),
          ("type", .str "SchemeSyntaxError")])) ∧
      ∃ sent error, (s.answerLine 10 [] (s.after 10 (lines.take 3) m₁)).1 = .value sent ∧
        Carries sent
          (.obj [("ok", .bool false), ("error", .str error), ("type", .str "ProtocolError")]) := by
  intro lines m₁ s
  have hstart : Server.start 10 ⟨[], []⟩ (some "localhost") (some 0) .absent (Machine.new .warning) =
      (.value s, m₁) := by with_unfolding_all rfl
  have hasked : ∀ code, askedCode? 10 (requestLine code) = some code := fun code =>
    askedCode?_requestLine (by decide) code
  have hletters : askedLetters? 10 [] = none := by with_unfolding_all rfl
  have hnone : askedCode? 10 [] = none := by rw [askedCode?, hletters, Option.bind_none]
  have hmem : ∀ line ∈ lines, (∃ code, line = requestLine code) ∨ line = [] := by
    simp [lines]
  have htexts : AskTexts 10 lines := by
    intro line hline letters hasks
    rcases hmem line hline with ⟨code, rfl⟩ | rfl
    · rw [askedCode?_eq_some_iff.1 (hasked code)] at hasks
      exact ⟨code, (Option.some.inj hasks).symm⟩
    · rw [hletters] at hasks
      cases hasks
  have hanswered : ∀ line ∈ lines, ∀ m, ∃ text, (s.answerLine 10 line m).1 = .value text := by
    intro line hline m
    rcases hmem line hline with ⟨code, rfl⟩ | rfl
    · obtain ⟨r, -, hanswer, -⟩ := answerLine_of_asked (s := s) (hasked code) m
      exact ⟨_, hanswer⟩
    · exact ⟨_, by with_unfolding_all rfl⟩
  obtain ⟨-, hstore, hlines⟩ := refines_session hstart lines htexts fun before line later hsplit =>
    hanswered line (by simp [hsplit]) _
  have hruns : askedRuns 10 lines =
      [.run 10 "(define x (quote a))", .run 10 "x", .run 10 "(f"] := by
    simp [askedRuns, lines, hasked, hnone]
  rw [hruns] at hstore
  refine ⟨hstore, by decide +kernel, hstore ▸ by decide +kernel, ?_, ?_, ?_⟩
  · obtain ⟨sent, hsent, hcode, -⟩ := hlines [requestLine "(define x (quote a))"] (requestLine "x") _ rfl
    have hbefore : askedRuns 10 [requestLine "(define x (quote a))"] =
        [.run 10 "(define x (quote a))"] := by simp [askedRuns, hasked]
    have hrun : (s.session.run 10 "x" (s.session.after [.run 10 "(define x (quote a))"] m₁)).1.value? =
        some "a" := by decide +kernel
    rw [hbefore] at hcode
    exact ⟨sent, hsent, ((hcode "x" (hasked _)).1 "a").2 (Outcome.eq_value_of_value? hrun)⟩
  · obtain ⟨sent, hsent, hcode, -⟩ :=
      hlines [requestLine "(define x (quote a))", requestLine "x"] (requestLine "(f") _ rfl
    have hrun : ∀ m, (s.session.run 10 "(f" m).1 = .fault .unexpectedEnd := by
      intro m
      with_unfolding_all rfl
    exact ⟨sent, hsent, ((hcode "(f" (hasked _)).2 _ _).2 ⟨.unexpectedEnd, hrun _, rfl, rfl⟩⟩
  · obtain ⟨sent, hsent, -, hrefused⟩ :=
      hlines [requestLine "(define x (quote a))", requestLine "x", requestLine "(f"] [] [] rfl
    obtain ⟨⟨error, hcarries⟩, -⟩ := hrefused hnone
    exact ⟨sent, error, hsent, hcarries⟩

end Server

end Lisplet
