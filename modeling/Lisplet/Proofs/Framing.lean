import Mathlib.Data.List.DropRight
import Lisplet.Proofs.Run
import Lisplet.Server

/-!
# Framing

A connection carries a stream of bytes, and the network cuts it where it likes. What a client gets does not
depend on the cuts: the stream is so many lines, each ended by a line feed, and a rest, and the lines that
are not blank are answered one after the other, each without the white space around it. The rest is never
looked at. A line that cannot be answered ends the connection, and what was sent before it stays sent.

Main definitions: `Framed`, `Strips`, `Server.Converses`. Main statement: `Server.serveClient_any_cutting`.
-/

namespace Lisplet

/-! ## Lines -/

/-- The bytes are the lines, with a line feed after each, and the rest after the last one. -/
structure Framed (bytes : List UInt8) (lines : List (List UInt8)) (rest : List UInt8) : Prop where
  eq : bytes = (lines.map (· ++ [lineFeed])).flatten ++ rest
  lines : ∀ line ∈ lines, lineFeed ∉ line
  rest : lineFeed ∉ rest

namespace Framed

variable {bytes more rest rest' : List UInt8} {lines lines' : List (List UInt8)}

theorem of_no_feed (h : lineFeed ∉ bytes) : Framed bytes [] bytes :=
  ⟨rfl, by simp, h⟩

/-- Bytes after a stream continue its rest. -/
theorem append (h : Framed bytes lines rest) (h' : Framed (rest ++ more) lines' rest') :
    Framed (bytes ++ more) (lines ++ lines') rest' where
  eq := by
    rw [h.eq, List.append_assoc, h'.eq, List.map_append, List.flatten_append, List.append_assoc]
  lines := by
    intro line hline
    rcases List.mem_append.1 hline with hline | hline
    · exact h.lines line hline
    · exact h'.lines line hline
  rest := h'.rest

end Framed

/-- Lines are split off at line feeds. -/
theorem framed_splitLines (bytes : List UInt8) :
    Framed bytes (splitLines bytes).1 (splitLines bytes).2 := by
  induction bytes with
  | nil => exact ⟨rfl, by simp [splitLines], by simp [splitLines]⟩
  | cons b bs ih =>
    rcases hsplit : splitLines bs with ⟨lines, rest⟩
    rw [hsplit] at ih
    by_cases hb : b = lineFeed
    · have hcons : splitLines (b :: bs) = ([] :: lines, rest) := by simp [splitLines, hsplit, hb]
      rw [hcons]
      refine ⟨?_, ?_, ih.rest⟩
      · rw [hb, ih.eq]
        simp
      · exact List.forall_mem_cons.2 ⟨by simp, ih.lines⟩
    · have hne : lineFeed ≠ b := fun h => hb h.symm
      cases lines with
      | nil =>
        have hcons : splitLines (b :: bs) = ([], b :: rest) := by simp [splitLines, hsplit, hb]
        rw [hcons]
        refine ⟨?_, by simp, ?_⟩
        · rw [ih.eq]
          simp
        · exact List.not_mem_cons_of_ne_of_not_mem hne ih.rest
      | cons line lines =>
        have hcons : splitLines (b :: bs) = ((b :: line) :: lines, rest) := by
          simp [splitLines, hsplit, hb]
        obtain ⟨hline, hlines⟩ := List.forall_mem_cons.1 ih.lines
        rw [hcons]
        refine ⟨?_, ?_, ih.rest⟩
        · rw [ih.eq]
          simp
        · exact List.forall_mem_cons.2 ⟨List.not_mem_cons_of_ne_of_not_mem hne hline, hlines⟩

/-- The first line feed ends the first line, so first lines agree. -/
theorem append_lineFeed_inj {line line' bs bs' : List UInt8} (hline : lineFeed ∉ line)
    (hline' : lineFeed ∉ line') (h : line ++ lineFeed :: bs = line' ++ lineFeed :: bs') :
    line = line' ∧ bs = bs' := by
  -- Both lines are used up together: one that went on would have the line feed of the other in it.
  induction line generalizing line' with
  | nil =>
    cases line' with
    | nil => exact ⟨rfl, (List.cons.inj h).2⟩
    | cons b line' =>
      have hb : lineFeed = b := (List.cons.inj h).1
      exact absurd (hb ▸ List.mem_cons_self ..) hline'
  | cons b line ih =>
    cases line' with
    | nil =>
      have hb : b = lineFeed := (List.cons.inj h).1
      exact absurd (hb ▸ List.mem_cons_self ..) hline
    | cons b' line' =>
      obtain ⟨rfl, htail⟩ := List.cons.inj h
      obtain ⟨rfl, rfl⟩ := ih (List.not_mem_of_not_mem_cons hline)
        (List.not_mem_of_not_mem_cons hline') htail
      exact ⟨rfl, rfl⟩

/-- There is one way to cut bytes into lines. -/
theorem Framed.unique {bytes rest rest' : List UInt8} {lines lines' : List (List UInt8)}
    (h : Framed bytes lines rest) (h' : Framed bytes lines' rest') : lines = lines' ∧ rest = rest' := by
  induction lines generalizing bytes lines' with
  | nil =>
    have hbytes : bytes = rest := by simpa using h.eq
    subst hbytes
    cases lines' with
    | nil => exact ⟨rfl, by simpa using h'.eq⟩
    | cons line lines' =>
      refine absurd ?_ h.rest
      rw [h'.eq]
      simp
  | cons line lines ih =>
    obtain ⟨hline, hlines⟩ := List.forall_mem_cons.1 h.lines
    cases lines' with
    | nil =>
      have hbytes : bytes = rest' := by simpa using h'.eq
      refine absurd ?_ h'.rest
      rw [← hbytes, h.eq]
      simp
    | cons line' lines' =>
      obtain ⟨hline', hlines'⟩ := List.forall_mem_cons.1 h'.lines
      have heq := h.eq.symm.trans h'.eq
      simp only [List.map_cons, List.flatten_cons, List.append_assoc, List.singleton_append] at heq
      obtain ⟨rfl, htail⟩ := append_lineFeed_inj hline hline' heq
      obtain ⟨rfl, rfl⟩ := ih ⟨rfl, hlines, h.rest⟩ ⟨htail, hlines', h'.rest⟩
      exact ⟨rfl, rfl⟩

/-! ## White space -/

/-- The line has no bytes but white space. -/
def IsBlankLine (line : List UInt8) : Prop :=
  ∀ b ∈ line, isSpaceByte b = true

/-- The core is what is left of the line without the white space around it, if the line is not blank. -/
structure Strips (line core : List UInt8) : Prop where
  around : ∃ before after, line = before ++ core ++ after ∧ IsBlankLine before ∧ IsBlankLine after
  first : ∃ b, core.head? = some b ∧ isSpaceByte b = false
  last : ∃ b, core.getLast? = some b ∧ isSpaceByte b = false

theorem stripBytes_eq (line : List UInt8) :
    stripBytes line = (line.dropWhile isSpaceByte).rdropWhile isSpaceByte := rfl

/-- Only of a blank line nothing is left. -/
theorem stripBytes_eq_nil_iff {line : List UInt8} : stripBytes line = [] ↔ IsBlankLine line := by
  rw [stripBytes_eq, List.rdropWhile_eq_nil_iff]
  constructor
  · intro h b hb
    rw [← List.takeWhile_append_dropWhile (p := isSpaceByte) (l := line)] at hb
    rcases List.mem_append.1 hb with hb | hb
    · exact List.mem_takeWhile_imp hb
    · exact h b hb
  · intro h b hb
    exact h b ((List.dropWhile_sublist _).subset hb)

theorem strips_stripBytes {line : List UInt8} (h : ¬ IsBlankLine line) :
    Strips line (stripBytes line) := by
  have hne : stripBytes line ≠ [] := fun hnil => h (stripBytes_eq_nil_iff.1 hnil)
  have hfront := List.takeWhile_append_dropWhile (p := isSpaceByte) (l := line)
  have hback := List.rdropWhile_append_rtakeWhile (p := isSpaceByte)
    (l := line.dropWhile isSpaceByte)
  rw [← stripBytes_eq] at hback
  refine ⟨⟨line.takeWhile isSpaceByte, (line.dropWhile isSpaceByte).rtakeWhile isSpaceByte, ?_,
    fun b => List.mem_takeWhile_imp, fun b => List.mem_rtakeWhile_imp⟩, ?_, ?_⟩
  · rw [List.append_assoc, hback, hfront]
  · -- The first byte is the one at which the white space at the front ends.
    obtain ⟨b, core, hcore⟩ := List.exists_cons_of_ne_nil hne
    refine ⟨b, by rw [hcore]; rfl, ?_⟩
    have hhead := List.head?_dropWhile_not isSpaceByte line
    rw [← hback, hcore] at hhead
    simpa using hhead
  · refine ⟨_, List.getLast?_eq_some_getLast hne, ?_⟩
    exact Bool.eq_false_iff.2 (List.rdropWhile_last_not (p := isSpaceByte) _ hne)

theorem Strips.eq {line core : List UInt8} (h : Strips line core) : core = stripBytes line := by
  obtain ⟨before, after, rfl, hbefore, hafter⟩ := h.around
  obtain ⟨b, hb, hfirst⟩ := h.first
  obtain ⟨c, hc, hlast⟩ := h.last
  have hfront : (before ++ core ++ after).dropWhile isSpaceByte = core ++ after := by
    obtain ⟨core, rfl⟩ : ∃ bs, core = b :: bs := List.head?_eq_some_iff.1 hb
    rw [List.append_assoc, List.dropWhile_append_of_pos hbefore, List.cons_append,
      List.dropWhile_cons_of_neg (by simp [hfirst])]
  have hback : (core ++ after).reverse.dropWhile isSpaceByte = core.reverse := by
    obtain ⟨bs, rfl⟩ : ∃ bs, core = bs ++ [c] := List.getLast?_eq_some_iff.1 hc
    have hafter' : ∀ b ∈ after.reverse, isSpaceByte b = true :=
      fun b hb => hafter b (List.mem_reverse.1 hb)
    rw [List.reverse_append, List.dropWhile_append_of_pos hafter', List.reverse_append,
      List.reverse_singleton, List.singleton_append, List.dropWhile_cons_of_neg (by simp [hlast])]
  rw [stripBytes, hfront, hback, List.reverse_reverse]

theorem Strips.unique {line core core' : List UInt8} (h : Strips line core) (h' : Strips line core') :
    core = core' :=
  h.eq.trans h'.eq.symm

theorem Strips.not_blank {line core : List UInt8} (h : Strips line core) : ¬ IsBlankLine line := by
  intro hblank
  obtain ⟨b, hb, -⟩ := h.first
  rw [h.eq, stripBytes_eq_nil_iff.2 hblank] at hb
  cases hb

/-! ## Conversations -/

namespace Server

variable {limit : Nat} {s : Server} {line : List UInt8} {lines more : List (List UInt8)}
  {m m₁ m₂ : Machine} {x y : Exchange}

/-- What comes of lines that are given to a server one after the other: blank lines have no effect, any
other line is answered without the white space around it, and one that has no answer ends it all. -/
inductive Converses (limit : Nat) (s : Server) :
    List (List UInt8) → Machine → Exchange → Machine → Prop where
  | done {m : Machine} : Converses limit s [] m ⟨[], false⟩ m
  | blank {line : List UInt8} {lines : List (List UInt8)} {m m' : Machine} {x : Exchange} :
      IsBlankLine line → Converses limit s lines m x m' → Converses limit s (line :: lines) m x m'
  | answer {line core : List UInt8} {lines : List (List UInt8)} {text : String} {m m₁ m' : Machine}
      {x : Exchange} :
      Strips line core → s.answerLine limit core m = (.value text, m₁) →
      Converses limit s lines m₁ x m' →
      Converses limit s (line :: lines) m ⟨text :: x.sent, x.died⟩ m'
  | dies {line core : List UInt8} {lines : List (List UInt8)} {o : Outcome String} {m m' : Machine} :
      Strips line core → s.answerLine limit core m = (o, m') → (∀ text, o ≠ .value text) →
      Converses limit s (line :: lines) m ⟨[], true⟩ m'

namespace Converses

/-- A conversation that has ended is not taken up again. -/
theorem append_died (h : Converses limit s lines m x m₁) (hdied : x.died = true) :
    Converses limit s (lines ++ more) m x m₁ := by
  induction h with
  | done => cases hdied
  | blank hblank _ ih => exact .blank hblank (ih hdied)
  | answer hstrips hanswer _ ih => exact .answer hstrips hanswer (ih hdied)
  | dies hstrips hanswer ho => exact .dies hstrips hanswer ho

/-- One that has not ended goes on. -/
theorem append (h : Converses limit s lines m x m₁) (hdied : x.died = false)
    (hmore : Converses limit s more m₁ y m₂) :
    Converses limit s (lines ++ more) m ⟨x.sent ++ y.sent, y.died⟩ m₂ := by
  induction h with
  | done => exact hmore
  | blank hblank _ ih => exact .blank hblank (ih hdied hmore)
  | answer hstrips hanswer _ ih => exact .answer hstrips hanswer (ih hdied hmore)
  | dies => cases hdied

end Converses

theorem answerLines_of_blank (h : IsBlankLine line) :
    s.answerLines limit (line :: lines) m = s.answerLines limit lines m := by
  simp [answerLines, stripBytes_eq_nil_iff.2 h]

theorem answerLines_of_answer {text : String} (h : ¬ IsBlankLine line)
    (hanswer : s.answerLine limit (stripBytes line) m = (.value text, m₁))
    (hlines : s.answerLines limit lines m₁ = (.value x, m₂)) :
    s.answerLines limit (line :: lines) m = (.value ⟨text :: x.sent, x.died⟩, m₂) := by
  have hne : stripBytes line ≠ [] := fun hnil => h (stripBytes_eq_nil_iff.1 hnil)
  have hobserve : (s.answerLine limit (stripBytes line)).observe m = (.value (.value text), m₁) := by
    rw [Run.observe, hanswer]
  rw [answerLines]
  simp only [List.isEmpty_iff, hne, if_false]
  rw [Run.bind_of_value _ hobserve]
  exact Run.bind_of_value _ hlines

theorem answerLines_of_no_answer {o : Outcome String} (h : ¬ IsBlankLine line)
    (hanswer : s.answerLine limit (stripBytes line) m = (o, m₁)) (ho : ∀ text, o ≠ .value text) :
    s.answerLines limit (line :: lines) m = (.value ⟨[], true⟩, m₁) := by
  have hne : stripBytes line ≠ [] := fun hnil => h (stripBytes_eq_nil_iff.1 hnil)
  have hobserve : (s.answerLine limit (stripBytes line)).observe m = (.value o, m₁) := by
    rw [Run.observe, hanswer]
  rw [answerLines]
  simp only [List.isEmpty_iff, hne, if_false]
  rw [Run.bind_of_value _ hobserve]
  cases o with
  | value text => exact absurd rfl (ho text)
  | fault f => rfl
  | exhausted => rfl

/-- Answering lines is such a conversation. -/
theorem answerLines_converses (limit : Nat) (s : Server) (lines : List (List UInt8)) (m : Machine) :
    ∃ x m', s.answerLines limit lines m = (.value x, m') ∧ Converses limit s lines m x m' := by
  induction lines generalizing m with
  | nil => exact ⟨_, _, rfl, .done⟩
  | cons line lines ih =>
    by_cases hblank : IsBlankLine line
    · obtain ⟨x, m', hlines, hconverses⟩ := ih m
      exact ⟨x, m', by rw [answerLines_of_blank hblank, hlines], .blank hblank hconverses⟩
    · rcases hanswer : s.answerLine limit (stripBytes line) m with ⟨o, m₁⟩
      have hstrips := strips_stripBytes hblank
      by_cases ho : ∀ text, o ≠ .value text
      · exact ⟨_, m₁, answerLines_of_no_answer hblank hanswer ho, .dies hstrips hanswer ho⟩
      · obtain ⟨text, rfl⟩ : ∃ text, o = .value text := by simpa using ho
        obtain ⟨x, m', hlines, hconverses⟩ := ih m₁
        exact ⟨_, m', answerLines_of_answer hblank hanswer hlines, .answer hstrips hanswer hconverses⟩

/-- A conversation is determined by its lines. -/
theorem Converses.unique {y : Exchange} {m' m'' : Machine} (h : Converses limit s lines m x m')
    (h' : Converses limit s lines m y m'') : x = y ∧ m' = m'' := by
  induction h generalizing y m'' with
  | done =>
    cases h'
    exact ⟨rfl, rfl⟩
  | blank hblank _ ih =>
    cases h' with
    | blank _ hlater => exact ih hlater
    | answer hstrips => exact absurd hblank hstrips.not_blank
    | dies hstrips => exact absurd hblank hstrips.not_blank
  | answer hstrips hanswer _ ih =>
    cases h' with
    | blank hblank => exact absurd hblank hstrips.not_blank
    | answer hstrips' hanswer' hlater =>
      obtain rfl := hstrips.unique hstrips'
      rw [hanswer] at hanswer'
      cases hanswer'
      obtain ⟨rfl, rfl⟩ := ih hlater
      exact ⟨rfl, rfl⟩
    | dies hstrips' hanswer' ho =>
      obtain rfl := hstrips.unique hstrips'
      rw [hanswer] at hanswer'
      cases hanswer'
      exact absurd rfl (ho _)
  | dies hstrips hanswer ho =>
    cases h' with
    | blank hblank => exact absurd hblank hstrips.not_blank
    | answer hstrips' hanswer' _ =>
      obtain rfl := hstrips.unique hstrips'
      rw [hanswer] at hanswer'
      cases hanswer'
      exact absurd rfl (ho _)
    | dies hstrips' hanswer' _ =>
      obtain rfl := hstrips.unique hstrips'
      rw [hanswer] at hanswer'
      cases hanswer'
      exact ⟨rfl, rfl⟩

/-! ## Chunks -/

/-- However the stream arrives, its lines are answered as if they had come at once. The invariant is that
the buffer is the rest of what has arrived, so it has no line feed. -/
theorem receive_converses {chunks : List (List UInt8)} (hchunks : ∀ c ∈ chunks, c ≠ [])
    {ending : List (List UInt8)} (hending : ∀ buffer, s.receive limit buffer ending = pure ⟨[], false⟩)
    {buffer rest : List UInt8} {lines : List (List UInt8)} (hbuffer : lineFeed ∉ buffer)
    (h : Framed (buffer ++ chunks.flatten) lines rest) (m : Machine) :
    ∃ x m', s.receive limit buffer (chunks ++ ending) m = (.value x, m') ∧
      Converses limit s lines m x m' := by
  induction chunks generalizing buffer lines m with
  | nil =>
    have hnone : Framed (buffer ++ ([] : List (List UInt8)).flatten) [] buffer := by
      simpa using Framed.of_no_feed hbuffer
    obtain ⟨rfl, -⟩ := h.unique hnone
    exact ⟨_, m, by rw [List.nil_append, hending]; rfl, .done⟩
  | cons chunk chunks ih =>
    obtain ⟨hchunk, hchunks⟩ := List.forall_mem_cons.1 hchunks
    rcases hsplit : splitLines (buffer ++ chunk) with ⟨now, buffer'⟩
    have hnow : Framed (buffer ++ chunk) now buffer' := by
      have := framed_splitLines (buffer ++ chunk)
      rwa [hsplit] at this
    -- The lines are those that end in this chunk and those of its rest with the chunks to come.
    have hlater := framed_splitLines (buffer' ++ chunks.flatten)
    rw [List.flatten_cons, ← List.append_assoc] at h
    obtain ⟨rfl, rfl⟩ := h.unique (hnow.append hlater)
    obtain ⟨x, m₁, hanswer, hconverses⟩ := s.answerLines_converses limit now m
    have hreceive : s.receive limit buffer (chunk :: chunks ++ ending) m =
        (if x.died then pure x else do
          let later ← s.receive limit buffer' (chunks ++ ending)
          pure ⟨x.sent ++ later.sent, later.died⟩ : Run Exchange) m₁ := by
      rw [List.cons_append, receive, if_neg (by simpa using hchunk)]
      simp only [hsplit]
      exact Run.bind_of_value _ hanswer
    rw [hreceive]
    cases hdied : x.died with
    | true => exact ⟨x, m₁, rfl, hconverses.append_died hdied⟩
    | false =>
      obtain ⟨y, m₂, hrest, hmore⟩ := ih hchunks hnow.rest hlater m₁
      exact ⟨_, m₂, Run.bind_of_value _ hrest, hconverses.append hdied hmore⟩

/-- A connection that ends where the chunks end, or at an empty chunk after them. -/
theorem receive_ending (limit : Nat) (s : Server) {ending : List (List UInt8)}
    (h : ending = [] ∨ ∃ unread, ending = [] :: unread) (buffer : List UInt8) :
    s.receive limit buffer ending = pure ⟨[], false⟩ := by
  rcases h with rfl | ⟨unread, rfl⟩
  · rfl
  · rw [receive, if_pos List.isEmpty_nil]

/-- **What a client gets does not depend on how its bytes arrive.** Every stream of bytes is lines with a
line feed after each, and a rest. Serving it comes to one exchange and one machine for all ways of cutting
the stream into chunks that are not empty, whether the stream then ends or an empty chunk says so. The
exchange is the conversation about the lines: the lines that are not blank are answered in order, each
without the white space around it and on the machine that the one before has left, up to the first that
has no answer. Before and after, only the log changes. -/
theorem serveClient_any_cutting (limit : Nat) (s : Server) (peer : Address) (m : Machine)
    (bytes : List UInt8) :
    (∃ lines rest, Framed bytes lines rest) ∧
    ∀ lines rest, Framed bytes lines rest → ∃ log log' x m₁,
      Run.report limit (.connected peer) m = (.value (), { m with log := log }) ∧
      Converses limit s lines { m with log := log } x m₁ ∧
      (x.died = true → log' = m₁.log) ∧
      (x.died = false →
        Run.report limit (.disconnected peer) m₁ = (.value (), { m₁ with log := log' })) ∧
      ∀ chunks, chunks.flatten = bytes → (∀ c ∈ chunks, c ≠ []) →
        ∀ ending, (ending = [] ∨ ∃ unread, ending = [] :: unread) →
          s.serveClient limit peer (chunks ++ ending) m = (.value x, { m₁ with log := log' }) := by
  refine ⟨⟨_, _, framed_splitLines bytes⟩, fun lines rest hframed => ?_⟩
  have hconnected : (Event.connected peer).message limit = .value _ := rfl
  obtain ⟨log, hlog⟩ := Run.report_of_message hconnected m
  obtain ⟨x, m₁, -, hconverses⟩ := s.answerLines_converses limit lines { m with log := log }
  have hdisconnected : (Event.disconnected peer).message limit = .value _ := rfl
  obtain ⟨log₁, hlog₁⟩ := Run.report_of_message hdisconnected m₁
  -- Every cutting leads to a conversation about the same lines, and there is only one.
  have hreceive : ∀ chunks, chunks.flatten = bytes → (∀ c ∈ chunks, c ≠ []) →
      ∀ ending, (ending = [] ∨ ∃ unread, ending = [] :: unread) →
        s.receive limit [] (chunks ++ ending) { m with log := log } = (.value x, m₁) := by
    rintro chunks rfl hchunks ending hending
    obtain ⟨y, m₂, hrun, hother⟩ := receive_converses hchunks (receive_ending limit s hending)
      List.not_mem_nil (by simpa using hframed) { m with log := log }
    obtain ⟨rfl, rfl⟩ := hother.unique hconverses
    exact hrun
  cases hdied : x.died with
  | true =>
    refine ⟨log, m₁.log, x, m₁, hlog, hconverses, fun _ => rfl, by simp [hdied], ?_⟩
    intro chunks hbytes hchunks ending hending
    rw [serveClient, Run.bind_of_value _ hlog,
      Run.bind_of_value _ (hreceive chunks hbytes hchunks ending hending), if_pos hdied]
    rfl
  | false =>
    refine ⟨log, log₁, x, m₁, hlog, hconverses, by simp [hdied], fun _ => hlog₁, ?_⟩
    intro chunks hbytes hchunks ending hending
    rw [serveClient, Run.bind_of_value _ hlog,
      Run.bind_of_value _ (hreceive chunks hbytes hchunks ending hending), if_neg (by simp [hdied])]
    exact Run.bind_of_value _ hlog₁

/-- A request that arrives in two parts, with a blank line and the start of another request after it. -/
theorem serveClient_any_cutting_torn :
    let s : Server := ⟨⟨"localhost", 0⟩, ⟨0⟩⟩
    let m := Machine.new .warning
    let answer := (Response.rejected "Unknown cmd: None").line
    Framed [123, 125, 10, 32, 10, 123] [[123, 125], [32]] [123] ∧
      s.serveClient 10 ⟨"localhost", 1⟩ [[123], [125, 10, 32], [10, 123]] m =
        (.value ⟨[answer], false⟩, m) := by
  intro s m answer
  have hframed : Framed [123, 125, 10, 32, 10, 123] [[123, 125], [32]] [123] :=
    ⟨rfl, by decide, by decide⟩
  obtain ⟨_, _, x, m₁, -, -, -, -, hserved⟩ :=
    (serveClient_any_cutting 10 s ⟨"localhost", 1⟩ m _).2 _ _ hframed
  -- All cuttings come to what the stream comes to in one piece.
  have hwhole := hserved [[123, 125, 10, 32, 10, 123]] rfl (by decide) [] (Or.inl rfl)
  have htorn := hserved [[123], [125, 10, 32], [10, 123]] rfl (by decide) [] (Or.inl rfl)
  refine ⟨hframed, htorn.trans (hwhole.symm.trans ?_)⟩
  with_unfolding_all rfl

end Server

end Lisplet
