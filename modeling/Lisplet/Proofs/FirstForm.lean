import Lisplet.Proofs.Incremental
import Lisplet.Proofs.Logging
import Lisplet.Proofs.Tasks

/-!
# The first form alone

The first form of a text can be read by itself, or as the first of all forms. The two ways differ in what
they look at: one never looks behind the form, the other asks for the next token before it reads. They come
to the same, and what stands behind the form plays no part: the text can be cut right after the form, or
go on with anything that does not lengthen its last token.

Evaluating the first form is therefore what a session does with a source that holds this form only. Texts
that are run without a session being named are run in one that is made for the first of them.

Main statements: `Scans.cut`, `runFirst_of_only_form`, `Session.runTexts_of_shared`, `first_form_agrees`.
-/

namespace Lisplet

/-! ## Cutting a text after a token -/

theorem Scans.tokens_eq {text : List Char} {ts : List (List Char)} (h : Scans text ts) : tokens text = ts := by
  induction h with
  | nil => rfl
  | blank hc _ ih => rw [tokens_cons_blank hc, ih]
  | paren hc _ ih => rw [tokens_cons_paren hc, ih]
  | run hword hbreak _ ih =>
    rw [tokens_append (separated_of_boundary hbreak), tokens_isWord hword, ih]
    rfl

/-- The text is cut right after a token: nothing of the token stands in the second part, and the first part
ends with its last character. -/
structure CutAfter (cut rest : List Char) : Prop where
  breaks : Breaks cut rest
  last : ∃ c ∈ cut.getLast?, Text.isBlank c = false

/-- What stands before a cut does not matter to it. -/
theorem CutAfter.prepend {cut rest : List Char} (h : CutAfter cut rest) (before : List Char) :
    CutAfter (before ++ cut) rest := by
  obtain ⟨c, hc, hblank⟩ := h.last
  have hlast : (before ++ cut).getLast? = cut.getLast? := by
    rw [List.getLast?_append, Option.mem_def.1 hc, Option.some_or]
  exact ⟨by rw [Breaks, hlast]; exact h.breaks, c, hlast ▸ hc, hblank⟩

/-- A text can be cut after any of its tokens, and then the part before has the tokens up to this one and
the part after has the others. -/
theorem Scans.cut {text : List Char} {all ts us : List (List Char)} (h : Scans text all)
    (hsplit : all = ts ++ us) (hne : ts ≠ []) :
    ∃ cut rest, text = cut ++ rest ∧ CutAfter cut rest ∧ Scans cut ts ∧ Scans rest us := by
  obtain ⟨t, ts, rfl⟩ := List.exists_cons_of_ne_nil hne
  induction h generalizing t ts with
  | nil => cases hsplit
  | @blank c r _ hc _ ih =>
    obtain ⟨cut, rest, rfl, hafter, hcut, hrest⟩ := ih t ts hsplit hne
    exact ⟨c :: cut, rest, rfl, hafter.prepend [c], .blank hc hcut, hrest⟩
  | @paren c r _ hc hscan ih =>
    obtain ⟨rfl, rfl⟩ := List.cons.inj hsplit
    -- The cut is right here or after a later token.
    cases ts with
    | nil =>
      have hblank : Text.isBlank c = false := isBlank_of_isParen hc
      have hbreaks : Breaks [c] r := by simp [Breaks, isBoundary, hc]
      exact ⟨[c], r, rfl, ⟨hbreaks, c, rfl, hblank⟩, .paren hc .nil, hscan⟩
    | cons t ts =>
      obtain ⟨cut, rest, rfl, hafter, hcut, hrest⟩ := ih t ts rfl (by simp)
      exact ⟨c :: cut, rest, rfl, hafter.prepend [c], .paren hc hcut, hrest⟩
  | @run w r _ hword hboundary hscan ih =>
    obtain ⟨rfl, rfl⟩ := List.cons.inj hsplit
    cases ts with
    | nil =>
      have hlast := List.getLast?_eq_some_getLast hword.1
      have hblank := (hword.2 _ (List.getLast_mem hword.1)).1
      have hbreaks : Breaks w r := fun _ _ d hd => Or.inr (hboundary d hd)
      have hcut : Scans (w ++ []) [w] := .run hword (by simp) .nil
      rw [List.append_nil] at hcut
      exact ⟨w, r, rfl, ⟨hbreaks, _, hlast, hblank⟩, hcut, hscan⟩
    | cons t ts =>
      obtain ⟨cut, rest, rfl, hafter, hcut, hrest⟩ := ih t ts rfl (by simp)
      -- The run is as long as before: what comes after it starts with the same character.
      have hhead : ∀ c ∈ cut.head?, isBoundary c = true := by
        intro c hc
        exact hboundary c (by rw [List.head?_append, Option.mem_def.1 hc, Option.some_or]; rfl)
      exact ⟨w ++ cut, rest, by simp, hafter.prepend w, .run hword hhead hcut, hrest⟩

/-! ## The tokens of the first form -/

section Reading

variable {limit : Nat} {text : String} {form : Value}

theorem readForm_eq_peek (limit : Nat) (text : String) :
    ((TokenStream.ofSource text).peek.2.read limit).1 = readForm limit text :=
  (TokenStream.read_of_remaining limit (TokenStream.remaining_peek _)).1

/-- The first of all forms is the first form. -/
theorem readForms_of_readForm (limit : Nat) (ht : tokenize text ≠ []) :
    (∀ form, readForm limit text = .ok form → (readForms limit text).forms.head? = some form) ∧
    ∀ f, readForm limit text = .error f → readForms limit text = ⟨[], some f⟩ := by
  have hremaining : (TokenStream.ofSource text).remaining ≠ [] := by
    rw [TokenStream.remaining_ofSource]
    exact ht
  have hread := readForm_eq_peek limit text
  constructor
  · intro form hform
    rw [readForms, TokenStream.readAll_of_read hremaining (Prod.ext (hread.trans hform) rfl)]
    rfl
  · intro f hf
    exact TokenStream.readAll_of_error hremaining (Prod.ext (hread.trans hf) rfl)

/-- The text can be cut right after its first form. What is left is the form alone, and whatever is put
behind it instead, the form is the first one. -/
theorem readForm_cut (h : readForm limit text = .ok form) :
    ∃ cut rest, text = cut ++ rest ∧ CutAfter cut.toList rest.toList ∧
      tokenize text = tokenize cut ++ tokenize rest ∧ readForms limit cut = ⟨[form], none⟩ ∧
      ∀ more, Breaks cut.toList more.toList → readForm limit (cut ++ more) = .ok form := by
  obtain ⟨taken, hne, hsplit, hread⟩ :=
    TokenStream.read_taken (s := TokenStream.ofSource text) (Prod.ext h rfl)
  -- The tokens of the form are the first tokens of the text, so the text can be cut after them.
  rw [TokenStream.remaining_ofSource, tokenize] at hsplit
  obtain ⟨ts, us, htokens, rfl, hus⟩ := List.map_eq_append_iff.1 hsplit
  have hts : ts ≠ [] := fun hnil => hne (by rw [hnil]; rfl)
  obtain ⟨cut, rest, htext, hafter, hcut, hrest⟩ := (scans_tokens text.toList).cut htokens hts
  have htokenize : tokenize (String.ofList cut) = ts.map String.ofList := by
    rw [tokenize, String.toList_ofList, hcut.tokens_eq]
  have happend : ∀ more : String, Breaks cut more.toList →
      tokenize (String.ofList cut ++ more) = ts.map String.ofList ++ tokenize more := by
    intro more hbreaks
    rw [tokenize, String.toList_append, String.toList_ofList, tokens_append_of_breaks hbreaks,
      List.map_append, hcut.tokens_eq, tokenize]
  have hwhole : text = String.ofList cut ++ String.ofList rest := by
    apply String.toList_injective
    rw [String.toList_append, String.toList_ofList, String.toList_ofList, htext]
  refine ⟨String.ofList cut, String.ofList rest, hwhole, ?_, ?_, ?_, ?_⟩
  · rw [String.toList_ofList, String.toList_ofList]
    exact hafter
  · rw [hwhole, happend _ (by rw [String.toList_ofList]; exact hafter.breaks), htokenize]
  · have hremaining : (TokenStream.ofSource (String.ofList cut)).remaining = ts.map String.ofList := by
      rw [TokenStream.remaining_ofSource, htokenize]
    have hform := hread [] (TokenStream.ofSource (String.ofList cut)).peek.2
      (by rw [TokenStream.remaining_peek, hremaining, List.append_nil])
    rw [readForms, TokenStream.readAll_of_read (by rw [hremaining]; exact hne) hform,
      TokenStream.readAll_of_nil (by simp [hremaining])]
  · intro more hbreaks
    rw [String.toList_ofList] at hbreaks
    have hremaining : (TokenStream.ofSource (String.ofList cut ++ more)).remaining =
        ts.map String.ofList ++ tokenize more := by
      rw [TokenStream.remaining_ofSource, happend more hbreaks]
    exact congrArg Prod.fst (hread (tokenize more) _ hremaining)

end Reading

/-! ## Reading during a run -/

section Runs

variable {limit : Nat} {text source : String} {form : Value} {f : Fault}

theorem parseFirst_of_error (h : readForm limit text = .error f) (m : Machine) :
    parseFirst limit text m = (.fault f, m) := by
  have hfault : Run.ofExcept (readForm limit text) m = (.fault f, m) := by
    rw [h]
    rfl
  rw [parseFirst, Run.bind_of_fault _ hfault]

/-- Reading the first form reports it and changes nothing else. -/
theorem parseFirst_eq (limit : Nat) (text : String) (m : Machine) :
    ∃ log, parseFirst limit text m = (Outcome.ofExcept (readForm limit text), { m with log := log }) := by
  cases h : readForm limit text with
  | ok form => exact parseFirst_of_readForm h m
  | error f => exact ⟨m.log, parseFirst_of_error h m⟩

/-- A reader in front of a token looks at it and then reads a form. -/
theorem Reader.next_of_remaining (limit : Nat) {s : TokenStream} (h : s.remaining ≠ []) :
    ∃ r, (Reader.mk s false).next limit = (some (s.peek.2.read limit).1, r) := by
  have hshown := s.peek_fst
  rcases hpeek : s.peek with ⟨o, s₁⟩
  rw [hpeek] at hshown
  cases o with
  | none => exact absurd (List.head?_eq_none_iff.1 hshown.symm) h
  | some t =>
    rcases hread : s₁.read limit with ⟨_ | v, s₂⟩ <;> simp [Reader.next, hpeek, hread]

/-- The first form that a reader hands out is the first form. -/
theorem parseNext_eq (limit : Nat) (ht : tokenize text ≠ []) (m : Machine) :
    ∃ r log, parseNext limit ⟨.ofSource text, false⟩ m =
      (.value (some (readForm limit text), r), { m with log := log }) := by
  obtain ⟨r, hnext⟩ := Reader.next_of_remaining limit (s := .ofSource text) ht
  rw [readForm_eq_peek] at hnext
  rw [parseNext, hnext]
  refine ⟨r, ?_⟩
  cases hform : readForm limit text with
  | error f => exact ⟨m.log, rfl⟩
  | ok form =>
    obtain ⟨shown, hshown⟩ := describe_of_readForm hform
    obtain ⟨log, hlog⟩ := Run.report_of_message (Event.message_readForm hshown) m
    exact ⟨log, Run.bind_of_value _ hlog⟩

/-- Evaluates a form and gives the printed text of its value. -/
def runForm (limit : Nat) (form : Value) (i : FrameId) : Run String := do
  let v ← evaluate limit form i
  Run.ofExcept (v.printed limit)

theorem runFirst_eq (limit : Nat) (text : String) (i : FrameId) :
    runFirst limit text i = parseFirst limit text >>= fun form => runForm limit form i := by
  rw [runFirst, evalFirst, Run.bind_assoc]
  rfl

/-- A session evaluates the only form of a source, after a report of it. -/
theorem Session.run_of_only_form (h : readForms limit source = ⟨[form], none⟩) (i : FrameId) :
    Session.run limit ⟨i⟩ source = Run.report limit (.readForm form) >>= fun _ => runForm limit form i := by
  have hsource : evalSource limit source i =
      Run.report limit (.readForm form) >>= fun _ => evaluate limit form i := by
    calc evalSource limit source i
        = (Run.report limit (.readForm form) >>= fun _ => evaluate limit form i >>= fun v => pure v) >>=
            fun v => pure v := by
          rw [evalSource_eq, h]
          rfl
      _ = _ := by simp only [Run.bind_pure]
  rw [Session.run, Session.eval, hsource, Run.bind_assoc]
  rfl

/-- The first form of a text is run as a session runs a source that holds this form only. -/
theorem runFirst_of_only_form (hform : readForm limit text = .ok form)
    (hsource : readForms limit source = ⟨[form], none⟩) (i : FrameId) (m : Machine) :
    (runFirst limit text i m).1 = (Session.run limit ⟨i⟩ source m).1 ∧
      (runFirst limit text i m).2.store = (Session.run limit ⟨i⟩ source m).2.store := by
  obtain ⟨shown, hshown⟩ := describe_of_readForm hform
  obtain ⟨log₁, hparse⟩ := parseFirst_of_readForm hform m
  obtain ⟨log₂, hreport⟩ := Run.report_of_message (Event.message_readForm hshown) m
  have hstable : Log.Stable fun _ _ => True := fun _ _ _ _ => trivial
  have hrun : (runForm limit form i).Oblivious fun _ _ => True :=
    ((eval_oblivious hstable limit form i).guard _).bind fun _ _ => .lift _
  rw [runFirst_eq, Run.bind_of_value _ hparse, Session.run_of_only_form hsource,
    Run.bind_of_value _ hreport]
  -- The two ways differ in what they have reported, and evaluation does not look at the log.
  obtain ⟨houtcome, halike⟩ := hrun { m with log := log₁ } { m with log := log₂ } ⟨rfl, trivial⟩
  exact ⟨houtcome, halike.store⟩

end Runs

/-! ## The shared session -/

namespace Session

variable {limit : Nat}

theorem runText_some (limit : Nat) (common : Option Session) (text : String) (i : FrameId) (m : Machine) :
    runText limit common text (some i) m =
      (.value ((runFirst limit text i m).1, common), (runFirst limit text i m).2) := rfl

/-- Without a frame a text is run in the frame of the shared session. -/
theorem runText_none (limit : Nat) (s : Session) (text : String) (m : Machine) :
    runText limit (some s) text none m =
      (.value ((runFirst limit text s.global m).1, some s), (runFirst limit text s.global m).2) := rfl

/-- A call with the frame that it is made in: that of the shared session where none is given. -/
def placed (s : Session) (call : String × Option FrameId) : String × Option FrameId :=
  (call.1, some (call.2.getD s.global))

/-- Once there is a shared session, calls without a frame are calls in its frame. -/
theorem runTexts_of_shared (limit : Nat) (s : Session) (common : Option Session)
    (calls : List (String × Option FrameId)) :
    runTexts limit (some s) calls = runTexts limit common (calls.map s.placed) := by
  induction calls with
  | nil => rfl
  | cons call calls ih =>
    obtain ⟨text, frame⟩ := call
    funext m
    have hcall : runText limit (some s) text frame m =
        (.value ((runFirst limit text (frame.getD s.global) m).1, some s),
          (runFirst limit text (frame.getD s.global) m).2) := by
      cases frame with
      | some i => exact runText_some ..
      | none => exact runText_none ..
    rw [List.map_cons, placed, runTexts, runTexts, Run.bind_of_value _ hcall,
      Run.bind_of_value _ (runText_some ..)]
    dsimp only
    rw [ih]

/-- The first call without a frame makes the shared session. -/
theorem runTexts_of_none (limit : Nat) (common : Option Session) (text : String)
    (calls : List (String × Option FrameId)) :
    runTexts limit none ((text, none) :: calls) =
      blank >>= fun s => runTexts limit common (((text, none) :: calls).map s.placed) := by
  have hfirst : runText limit none text none = blank >>= fun s => runText limit (some s) text none := rfl
  have hshared : runTexts limit none ((text, none) :: calls) =
      blank >>= fun s => runTexts limit (some s) ((text, none) :: calls) := by
    rw [runTexts, hfirst, Run.bind_assoc]
    rfl
  rw [hshared]
  exact congrArg _ (funext fun s => runTexts_of_shared limit s common _)

end Session

/-- What is run first depends on the text only through its first form. -/
theorem runFirst_congr {limit : Nat} {text other : String}
    (h : readForm limit text = readForm limit other) (i : FrameId) :
    runFirst limit text i = runFirst limit other i := by
  rw [runFirst, runFirst, evalFirst, evalFirst, parseFirst, parseFirst, h]

/-- The two ways into a text agree on its first form. Read alone or as the first of all forms, it is the
same form or the same failure, and reading changes nothing. If it fails, running the text fails in this way
in every frame, alone or in a session, and nothing is changed. If it is a form, running it has the same
outcome and leaves the same store as running, in a session in the same frame, any source that holds only
this form. Such a source is the text cut right after the form, and the text may go on from there with
anything else. Texts that are run one after the other without a frame, possibly with others between them,
are run as in the frame of one new session. -/
theorem first_form_agrees (limit : Nat) {text : String} (ht : tokenize text ≠ []) (m : Machine) :
    (∃ r : Except Fault Value,
      (∃ log, parseFirst limit text m = (Outcome.ofExcept r, { m with log := log })) ∧
      (∃ next log, parseNext limit ⟨.ofSource text, false⟩ m =
        (.value (some r, next), { m with log := log })) ∧
      (∀ f, r = .error f → readForms limit text = ⟨[], some f⟩ ∧
        ∀ i, runFirst limit text i m = (.fault f, m) ∧ Session.run limit ⟨i⟩ text m = (.fault f, m)) ∧
      ∀ form, r = .ok form → (readForms limit text).forms.head? = some form ∧
        (∀ source, readForms limit source = ⟨[form], none⟩ → ∀ i,
          (runFirst limit text i m).1 = (Session.run limit ⟨i⟩ source m).1 ∧
          (runFirst limit text i m).2.store = (Session.run limit ⟨i⟩ source m).2.store) ∧
        ∃ cut rest, text = cut ++ rest ∧ CutAfter cut.toList rest.toList ∧
          tokenize text = tokenize cut ++ tokenize rest ∧ readForms limit cut = ⟨[form], none⟩ ∧
          ∀ more, Breaks cut.toList more.toList → ∀ i,
            runFirst limit (cut ++ more) i = runFirst limit text i) ∧
    ∀ first calls common, Session.runTexts limit none ((first, none) :: calls) =
      Session.blank >>= fun s =>
        Session.runTexts limit common (((first, none) :: calls).map s.placed) := by
  obtain ⟨hfirst, hfailure⟩ := readForms_of_readForm limit ht
  refine ⟨⟨readForm limit text, parseFirst_eq limit text m, parseNext_eq limit ht m, ?_, ?_⟩,
    fun first calls common => Session.runTexts_of_none limit common first calls⟩
  · intro f hf
    refine ⟨hfailure f hf, fun i => ⟨?_, ?_⟩⟩
    · rw [runFirst_eq, Run.bind_of_fault _ (parseFirst_of_error hf m)]
    · rw [Session.run, Session.eval, evalSource_eq, hfailure f hf]
      rfl
  · intro form hform
    refine ⟨hfirst form hform, fun source hsource i => runFirst_of_only_form hform hsource i m, ?_⟩
    obtain ⟨cut, rest, htext, hafter, htokens, hcut, hmore⟩ := readForm_cut hform
    refine ⟨cut, rest, htext, hafter, htokens, hcut, fun more hbreaks i => ?_⟩
    exact runFirst_congr ((hmore more hbreaks).trans hform.symm) i

/-- A definition with a parenthesis too many behind it and another one left open is run like the definition
alone. -/
theorem first_form_agrees_unbalanced :
    let m : Machine := ⟨⟨#[⟨[], none⟩], 0⟩, Log.new .error⟩
    tokenize "(define x 5)) (" ≠ [] ∧
    readForms 9 " (define\tx 5)" = ⟨[.literal [.symbol "define", .symbol "x", .int 5]], none⟩ ∧
    (runFirst 9 "(define x 5)) (" 0 m).1 = (Session.run 9 ⟨0⟩ " (define\tx 5)" m).1 ∧
    (runFirst 9 "(define x 5)) (" 0 m).2.store = (Session.run 9 ⟨0⟩ " (define\tx 5)" m).2.store := by
  intro m
  have ht : tokenize "(define x 5)) (" ≠ [] := by decide
  have hsource : readForms 9 " (define\tx 5)" =
      ⟨[.literal [.symbol "define", .symbol "x", .int 5]], none⟩ := by with_unfolding_all rfl
  obtain ⟨⟨r, ⟨log, hparse⟩, -, -, hform⟩, -⟩ := first_form_agrees 9 ht m
  have hread : (parseFirst 9 "(define x 5)) (" m).1 =
      .value (.literal [.symbol "define", .symbol "x", .int 5]) := by with_unfolding_all rfl
  rw [hparse] at hread
  cases r with
  | error f => cases hread
  | ok form =>
    cases hread
    exact ⟨ht, hsource, (hform _ rfl).2.1 _ hsource 0⟩

end Lisplet
