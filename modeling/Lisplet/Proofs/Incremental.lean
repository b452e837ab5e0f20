import Lisplet.Proofs.Limits
import Lisplet.Proofs.Scanning

/-!
# Sources in parts

A session reads and evaluates a source in one pass: a form is read only when its turn comes, and by then
the forms before it have been evaluated and their effects are there to stay. So a source can be handed
over whole or in parts that are separated by blanks, and a mistake in it is met no earlier and no later
than the forms around it.

The pass is told here as a relation, `Interleaves`, that names the forms that come to be evaluated. It
takes tokens from the stream as it goes, while the definition of evaluation lists all forms first; that
both come to the same is one induction on the tokens that are left.

Main definition: `Interleaves`. Main statements: `tokenize_append_blank`, `TokenStream.readAll_append`,
`evalSource_append`, `Interleaves.evaluates`, `Session.eval_incremental`.
-/

namespace Lisplet

/-! ## The tokens of two texts -/

theorem tokens_of_blank {w : List Char} (hw : ∀ c ∈ w, Text.isBlank c = true) (b : List Char) :
    tokens (w ++ b) = tokens b := by
  induction w with
  | nil => rfl
  | cons c w ih =>
    obtain ⟨hc, hrest⟩ := List.forall_mem_cons.1 hw
    rw [List.cons_append, tokens_cons_blank hc, ih hrest]

/-- Blanks between two sources keep their tokens apart. -/
theorem tokenize_append_blank {w : String} (hne : w ≠ "")
    (hw : ∀ c ∈ w.toList, Text.isBlank c = true) (a b : String) :
    tokenize (a ++ w ++ b) = tokenize a ++ tokenize b := by
  have hbreak : Breaks a.toList (w.toList ++ b.toList) := by
    intro _ _ d hd
    obtain ⟨c, r, hcons⟩ : ∃ c r, w.toList = c :: r :=
      List.exists_cons_of_ne_nil (by simpa using hne)
    obtain rfl : c = d := by simpa [hcons] using hd
    have hblank : Text.isBlank c = true := hw c (by simp [hcons])
    exact Or.inr (by simp [isBoundary, hblank])
  simp only [tokenize, String.toList_append, List.append_assoc]
  rw [tokens_append_of_breaks hbreak, tokens_of_blank hw, List.map_append]

/-! ## Reading in front of more tokens -/

namespace TokenStream

variable {limit : Nat} {s s' t : TokenStream} {v : Value} {ts us : List String}

/-- The tokens that are taken for a form are read as this form whatever follows them, and what follows
them is left for later. -/
theorem parseFrom_taken {pending : List (List Value)} (hs : s.remaining = ts)
    (h : s.parseFrom limit pending = (.value v, s')) :
    ∃ taken, taken ≠ [] ∧ ts = taken ++ s'.remaining ∧
      ∀ us (t : TokenStream), t.remaining = taken ++ us →
        t.parseFrom limit pending = (.value v, t.skip taken.length) := by
  induction ts generalizing pending s with
  | nil =>
    rw [parseFrom_nil hs] at h
    cases h
  | cons u ts ih =>
    obtain ⟨-, hnext⟩ := advance_of_remaining_cons hs
    have haccept : ∀ rest w, accept limit rest w s.advance.2 = (.value v, s') →
        ∃ taken, ts = taken ++ s'.remaining ∧ ∀ us (t : TokenStream), t.remaining = taken ++ us →
          accept limit rest w t = (.value v, t.skip taken.length) := by
      intro rest w hrun
      cases rest with
      | nil =>
        cases hrun
        exact ⟨[], hnext.symm, fun _ _ _ => rfl⟩
      | cons items rest =>
        obtain ⟨taken, -, hsplit, hread⟩ := ih hnext hrun
        exact ⟨taken, hsplit, fun us t ht => hread us t ht⟩
    -- It is enough to find the tokens after the first one.
    suffices hafter : ∃ taken, ts = taken ++ s'.remaining ∧
        ∀ us (t : TokenStream), t.remaining = u :: (taken ++ us) →
          t.parseFrom limit pending = (.value v, t.advance.2.skip taken.length) by
      obtain ⟨taken, rfl, hread⟩ := hafter
      exact ⟨u :: taken, by simp, rfl, hread⟩
    rw [parseFrom_cons hs] at h
    -- Streams with the same next token take the same branch.
    split at h
    · cases pending with
      | nil => cases h
      | cons items rest =>
        obtain ⟨taken, hsplit, hread⟩ := haccept rest _ h
        refine ⟨taken, hsplit, fun us t ht => ?_⟩
        rw [parseFrom_cons ht, if_pos (by assumption)]
        exact hread us _ (advance_of_remaining_cons ht).2
    · split at h
      · cases h
      · split at h
        · obtain ⟨taken, -, hsplit, hread⟩ := ih hnext h
          refine ⟨taken, hsplit, fun us t ht => ?_⟩
          rw [parseFrom_cons ht, if_neg (by assumption), if_neg (by assumption), if_pos (by assumption)]
          exact hread us _ (advance_of_remaining_cons ht).2
        · cases hatom : atom u with
          | error f =>
            rw [hatom] at h
            cases h
          | ok w =>
            rw [hatom] at h
            obtain ⟨taken, hsplit, hread⟩ := haccept pending w h
            refine ⟨taken, hsplit, fun us t ht => ?_⟩
            rw [parseFrom_cons ht, if_neg (by assumption), if_neg (by assumption), if_neg (by assumption),
              hatom]
            exact hread us _ (advance_of_remaining_cons ht).2

theorem read_taken (h : s.read limit = (.ok v, s')) :
    ∃ taken, taken ≠ [] ∧ s.remaining = taken ++ s'.remaining ∧
      ∀ us (t : TokenStream), t.remaining = taken ++ us →
        t.read limit = (.ok v, t.skip taken.length) := by
  rcases hparse : s.parseFrom limit [] with ⟨o, s₁⟩
  simp only [read, parse, hparse, Prod.mk.injEq] at h
  obtain ⟨ho, rfl⟩ := h
  cases o with
  | value w =>
    cases ho
    obtain ⟨taken, hne, hsplit, hread⟩ := parseFrom_taken rfl hparse
    refine ⟨taken, hne, hsplit, fun us t ht => ?_⟩
    simp [read, parse, hread us t ht, Outcome.toExcept]
  | fault f => cases ho
  | exhausted => cases ho

/-- A form that is read to its end is read in the same way when more tokens follow, and these are left
for later. -/
theorem read_append (ht : t.remaining = s.remaining ++ us) (h : s.read limit = (.ok v, s')) :
    ∃ t', t.read limit = (.ok v, t') ∧ t'.remaining = s'.remaining ++ us := by
  obtain ⟨taken, -, hsplit, hread⟩ := read_taken h
  have hmore : t.remaining = taken ++ (s'.remaining ++ us) := by
    rw [ht, hsplit, List.append_assoc]
  exact ⟨_, hread _ t hmore, by simp [hmore]⟩

theorem read_of_remaining (limit : Nat) (h : s.remaining = t.remaining) :
    (s.read limit).1 = (t.read limit).1 ∧
      (s.read limit).2.remaining = (t.read limit).2.remaining := by
  obtain ⟨hform, hleft⟩ := parseFrom_of_remaining limit [] h
  exact ⟨congrArg (·.toExcept .reading) hform, hleft⟩

/-- So are all forms. -/
theorem readAll_of_remaining (h : s.remaining = t.remaining) : s.readAll limit = t.readAll limit := by
  induction hlen : s.remaining.length using Nat.strongRecOn generalizing s t with
  | ind k ih =>
    by_cases hs : s.remaining = []
    · rw [readAll_of_nil hs, readAll_of_nil (h.symm.trans hs)]
    · have ht : t.remaining ≠ [] := fun hnil => hs (h.trans hnil)
      have hpeek : s.peek.2.remaining = t.peek.2.remaining := by simp [h]
      obtain ⟨hform, hleft⟩ := read_of_remaining limit hpeek
      rcases hread : s.peek.2.read limit with ⟨r, s'⟩
      rcases hread' : t.peek.2.read limit with ⟨r', t'⟩
      rw [hread, hread'] at hform hleft
      obtain rfl : r = r' := hform
      cases r with
      | error f => rw [readAll_of_error hs hread, readAll_of_error ht hread']
      | ok v =>
        have hshort : s'.remaining.length < k := by
          simpa [← hlen] using length_remaining_of_read hread
        rw [readAll_of_read hs hread, readAll_of_read ht hread', ih _ hshort hleft rfl]

/-- Tokens that are read to their end without a failure are read in the same way in front of others,
and then these are read as if they stood alone. -/
theorem readAll_append (h : ((ofTokens ts).readAll limit).failure = none) (us : List String) :
    (ofTokens (ts ++ us)).readAll limit =
      ⟨((ofTokens ts).readAll limit).forms ++ ((ofTokens us).readAll limit).forms,
        ((ofTokens us).readAll limit).failure⟩ := by
  -- A form takes a token, so the induction is on the number of tokens before the others.
  induction hlen : ts.length using Nat.strongRecOn generalizing ts with
  | ind k ih =>
    by_cases hts : ts = []
    · subst hts
      rw [readAll_of_nil (s := ofTokens []) rfl]
      simp
    · have hne : (ofTokens ts).remaining ≠ [] := hts
      rcases hread : (ofTokens ts).peek.2.read limit with ⟨r, s'⟩
      cases r with
      | error f =>
        rw [readAll_of_error hne hread] at h
        cases h
      | ok v =>
        have hmore : (ofTokens (ts ++ us)).peek.2.remaining =
            (ofTokens ts).peek.2.remaining ++ us := by simp
        have hne' : (ofTokens (ts ++ us)).remaining ≠ [] := by simp [hts]
        obtain ⟨t', hread', hleft⟩ := read_append hmore hread
        have hsame : s'.readAll limit = (ofTokens s'.remaining).readAll limit :=
          readAll_of_remaining rfl
        have hsame' : t'.readAll limit = (ofTokens (s'.remaining ++ us)).readAll limit :=
          readAll_of_remaining hleft
        rw [readAll_of_read hne hread, hsame] at h
        rw [readAll_of_read hne hread, readAll_of_read hne' hread', hsame, hsame']
        have hshort : s'.remaining.length < k := by
          have := length_remaining_of_read hread
          simpa [← hlen] using this
        rw [ih _ hshort h rfl]
        simp

end TokenStream

theorem readForms_append {limit : Nat} {a w : String} (ha : (readForms limit a).failure = none)
    (hne : w ≠ "") (hw : ∀ c ∈ w.toList, Text.isBlank c = true) (b : String) :
    readForms limit (a ++ w ++ b) =
      ⟨(readForms limit a).forms ++ (readForms limit b).forms, (readForms limit b).failure⟩ := by
  simp only [readForms, TokenStream.ofSource, tokenize_append_blank hne hw]
  exact TokenStream.readAll_append ha (tokenize b)

/-- A source without tokens is read as no forms, and no other source is. -/
theorem readForms_eq_empty_iff {limit : Nat} {b : String} :
    readForms limit b = ⟨[], none⟩ ↔ tokenize b = [] := by
  constructor
  · intro h
    by_contra hne
    have hne' : (TokenStream.ofSource b).remaining ≠ [] := by
      rw [TokenStream.remaining_ofSource]
      exact hne
    rcases hread : (TokenStream.ofSource b).peek.2.read limit with ⟨r, s'⟩
    -- The first form is read or not, and neither is nothing.
    cases r with
    | error f => simp [readForms, TokenStream.readAll_of_error hne' hread] at h
    | ok v => simp [readForms, TokenStream.readAll_of_read hne' hread] at h
  · intro h
    exact TokenStream.readAll_of_nil h

/-! ## Evaluating in parts -/

theorem Run.bind_pure {α : Type} (x : Run α) : (x >>= fun a => pure a) = x := by
  funext m
  rcases hx : x m with ⟨o, m'⟩
  cases o with
  | value a => rw [Run.bind_of_value _ hx, Run.pure_apply]
  | fault e => rw [Run.bind_of_fault _ hx]
  | exhausted => rw [Run.bind_of_exhausted _ hx]

/-- How the evaluation of a source ends when all forms that could be read have been evaluated. -/
def conclude (failure : Option Fault) (v : Value) : Run Value :=
  match failure with
  | none => pure v
  | some f => Run.fault f

theorem evalSource_eq (limit : Nat) (source : String) (i : FrameId) :
    evalSource limit source i =
      evalForms limit i .noValue (readForms limit source).forms >>=
        conclude (readForms limit source).failure :=
  rfl

/-- The value before a source matters only if there is nothing in the source. -/
theorem evalForms_conclude (limit : Nat) (b : String) (i : FrameId) (v : Value) :
    evalForms limit i v (readForms limit b).forms >>= conclude (readForms limit b).failure =
      evalSource limit b i >>= fun u => pure (if tokenize b = [] then v else u) := by
  rw [evalSource_eq]
  by_cases hb : tokenize b = []
  · simp only [readForms_eq_empty_iff.2 hb, if_pos hb]
    rfl
  · simp only [if_neg hb, Run.bind_pure]
    rcases hread : readForms limit b with ⟨forms, failure⟩
    cases forms with
    | cons form forms => rfl
    | nil =>
      cases failure with
      | some f => rfl
      | none => exact absurd (readForms_eq_empty_iff.1 hread) hb

/-- Evaluating a source and then another one is evaluating both in one, with blanks between them. -/
theorem evalSource_append {limit : Nat} {a w : String} (ha : (readForms limit a).failure = none)
    (hne : w ≠ "") (hw : ∀ c ∈ w.toList, Text.isBlank c = true) (b : String) (i : FrameId) :
    evalSource limit (a ++ w ++ b) i = (do
      let v ← evalSource limit a i
      let u ← evalSource limit b i
      pure (if tokenize b = [] then v else u)) := by
  have hfirst : evalSource limit a i = evalForms limit i .noValue (readForms limit a).forms := by
    rw [evalSource_eq, ha]
    exact Run.bind_pure _
  calc evalSource limit (a ++ w ++ b) i
      = evalForms limit i .noValue ((readForms limit a).forms ++ (readForms limit b).forms) >>=
          conclude (readForms limit b).failure := by
        rw [evalSource_eq, readForms_append ha hne hw]
    _ = evalForms limit i .noValue (readForms limit a).forms >>= fun v =>
          evalForms limit i v (readForms limit b).forms >>= conclude (readForms limit b).failure := by
        rw [evalForms_append, Run.bind_assoc]
    _ = _ := by
        rw [hfirst]
        simp only [evalForms_conclude]

/-! ## One pass -/

/-- One pass over a stream, from a last value and a machine on: these forms come to be evaluated, one
after the other, and the pass ends with this result and leaves this machine. What stands in the stream
behind the form that fails is not looked at. -/
inductive Interleaves (limit : Nat) (i : FrameId) :
    TokenStream → Value → Machine → List Value → Except Fault Value → Machine → Prop where
  /-- No token is left: the last value is the result. -/
  | finished {s : TokenStream} {last : Value} {m : Machine} :
      s.remaining = [] → Interleaves limit i s last m [] (.ok last) m
  /-- The next form cannot be read. -/
  | unread {s s' : TokenStream} {last : Value} {m : Machine} {f : Fault} :
      s.remaining ≠ [] → s.peek.2.read limit = (.error f, s') →
      Interleaves limit i s last m [] (.error f) m
  /-- The next form is read and fails. -/
  | failed {s s' : TokenStream} {last form : Value} {m m₁ m₂ : Machine} {f : Fault} :
      s.peek.2.read limit = (.ok form, s') →
      Run.report limit (.readForm form) m = (.value (), m₁) →
      evaluate limit form i m₁ = (.fault f, m₂) →
      Interleaves limit i s last m [form] (.error f) m₂
  /-- The next form is read and has a value, and only then the pass goes on. -/
  | evaluated {s s' : TokenStream} {last form v : Value} {m m₁ m₂ m₃ : Machine} {forms : List Value}
      {r : Except Fault Value} :
      s.peek.2.read limit = (.ok form, s') →
      Run.report limit (.readForm form) m = (.value (), m₁) →
      evaluate limit form i m₁ = (.value v, m₂) →
      Interleaves limit i s' v m₂ forms r m₃ →
      Interleaves limit i s last m (form :: forms) r m₃

section Pass

variable {limit : Nat} {i : FrameId} {s s' : TokenStream} {last form v : Value} {m m₁ m₂ m₃ : Machine}

theorem TokenStream.remaining_ne_nil_of_read (h : s.peek.2.read limit = (.ok form, s')) :
    s.remaining ≠ [] := by
  intro hnil
  have hlen := TokenStream.length_remaining_of_read h
  simp [hnil] at hlen

/-- A form that was read can be reported. -/
theorem report_of_read (h : s.peek.2.read limit = (.ok form, s')) (m : Machine) :
    ∃ m₁, Run.report limit (.readForm form) m = (.value (), m₁) := by
  obtain ⟨hform, hnesting⟩ := TokenStream.read_isForm h
  obtain ⟨text, htext⟩ := hform.describe_eq hnesting
  obtain ⟨log, hlog⟩ := Run.report_of_message (Event.message_readForm htext) m
  exact ⟨_, hlog⟩

/-- From every stream on there is a pass. -/
theorem Interleaves.exists (limit : Nat) (i : FrameId) (s : TokenStream) (last : Value) (m : Machine) :
    ∃ forms r m', Interleaves limit i s last m forms r m' := by
  induction hlen : s.remaining.length using Nat.strongRecOn generalizing s last m with
  | ind k ih =>
    by_cases hs : s.remaining = []
    · exact ⟨_, _, _, .finished hs⟩
    · rcases hread : s.peek.2.read limit with ⟨r, s'⟩
      cases r with
      | error f => exact ⟨_, _, _, .unread hs hread⟩
      | ok form =>
        obtain ⟨m₁, hreport⟩ := report_of_read hread m
        obtain ⟨r, m₂, hevaluate⟩ := Run.Concludes.guard .evaluating (eval limit form i) m₁
        cases r with
        | error f => exact ⟨_, _, _, .failed hread hreport hevaluate⟩
        | ok v =>
          have hshort : s'.remaining.length < k := by
            rw [← hlen]
            simpa using TokenStream.length_remaining_of_read hread
          obtain ⟨forms, r, m', hlater⟩ := ih _ hshort s' v m₂ rfl
          exact ⟨_, _, _, .evaluated hread hreport hevaluate hlater⟩

/-- The pass is what evaluating all forms of the stream, and then failing if one could not be read,
comes to. -/
theorem Interleaves.evaluates {forms : List Value} {r : Except Fault Value} {m' : Machine}
    (h : Interleaves limit i s last m forms r m') :
    (evalForms limit i last (s.readAll limit).forms >>= conclude (s.readAll limit).failure) m =
      (Outcome.ofExcept r, m') := by
  induction h with
  | finished hs =>
    rw [TokenStream.readAll_of_nil hs]
    rfl
  | unread hs hread =>
    rw [TokenStream.readAll_of_error hs hread]
    rfl
  | failed hread hreport hevaluate =>
    rw [TokenStream.readAll_of_read (TokenStream.remaining_ne_nil_of_read hread) hread]
    apply Run.bind_of_fault
    rw [evalForms, Run.bind_of_value _ hreport, Run.bind_of_fault _ hevaluate]
  | evaluated hread hreport hevaluate _ ih =>
    rw [TokenStream.readAll_of_read (TokenStream.remaining_ne_nil_of_read hread) hread]
    -- The form is evaluated first, and what is left is the pass over the rest of the stream.
    rw [evalForms, Run.bind_assoc, Run.bind_of_value _ hreport, Run.bind_assoc,
      Run.bind_of_value _ hevaluate]
    exact ih

/-- There is one pass only. -/
theorem Interleaves.unique {forms forms' : List Value} {r r' : Except Fault Value} {m' m'' : Machine}
    (h : Interleaves limit i s last m forms r m') (h' : Interleaves limit i s last m forms' r' m'') :
    forms' = forms ∧ r' = r ∧ m'' = m' := by
  induction h generalizing forms' r' m'' with
  | finished hs =>
    cases h' with
    | finished _ => exact ⟨rfl, rfl, rfl⟩
    | unread hs' _ => exact absurd hs hs'
    | failed hread _ _ => exact absurd hs (TokenStream.remaining_ne_nil_of_read hread)
    | evaluated hread _ _ _ => exact absurd hs (TokenStream.remaining_ne_nil_of_read hread)
  | unread hs hread =>
    cases h' with
    | finished hs' => exact absurd hs' hs
    | unread _ hread' =>
      cases hread.symm.trans hread'
      exact ⟨rfl, rfl, rfl⟩
    | failed hread' _ _ => cases hread.symm.trans hread'
    | evaluated hread' _ _ _ => cases hread.symm.trans hread'
  | failed hread hreport hevaluate =>
    cases h' with
    | finished hs' => exact absurd hs' (TokenStream.remaining_ne_nil_of_read hread)
    | unread _ hread' => cases hread.symm.trans hread'
    | failed hread' hreport' hevaluate' =>
      cases hread.symm.trans hread'
      cases hreport.symm.trans hreport'
      cases hevaluate.symm.trans hevaluate'
      exact ⟨rfl, rfl, rfl⟩
    | evaluated hread' hreport' hevaluate' _ =>
      cases hread.symm.trans hread'
      cases hreport.symm.trans hreport'
      cases hevaluate.symm.trans hevaluate'
  | evaluated hread hreport hevaluate _ ih =>
    cases h' with
    | finished hs' => exact absurd hs' (TokenStream.remaining_ne_nil_of_read hread)
    | unread _ hread' => cases hread.symm.trans hread'
    | failed hread' hreport' hevaluate' =>
      cases hread.symm.trans hread'
      cases hreport.symm.trans hreport'
      cases hevaluate.symm.trans hevaluate'
    | evaluated hread' hreport' hevaluate' hlater' =>
      cases hread.symm.trans hread'
      cases hreport.symm.trans hreport'
      cases hevaluate.symm.trans hevaluate'
      obtain ⟨rfl, rfl, rfl⟩ := ih hlater'
      exact ⟨rfl, rfl, rfl⟩

/-- Forms that have values are evaluated before the pass comes to what stands behind them. -/
theorem Interleaves.of_yields {forms later : List Value} {r : Except Fault Value} {m' : Machine}
    (hyields : s.Yields limit forms s') (hforms : evalForms limit i last forms m = (.value v, m'))
    (h : Interleaves limit i s' v m' later r m₃) :
    Interleaves limit i s last m (forms ++ later) r m₃ := by
  induction hyields generalizing last m with
  | nothing =>
    cases hforms
    exact h
  | form hread _ ih =>
    obtain ⟨_, m₁, hreport, hrest⟩ := Run.bind_eq_value_iff.1 hforms
    obtain ⟨w, m₂, hevaluate, hlast⟩ := Run.bind_eq_value_iff.1 hrest
    exact .evaluated hread hreport hevaluate (ih hlast h)

/-- The last of some forms was read in a turn of its own. -/
theorem TokenStream.Yields.split_last {forms : List Value} (h : s.Yields limit (forms ++ [form]) s') :
    ∃ s₁, s.Yields limit forms s₁ ∧ s₁.peek.2.read limit = (.ok form, s') := by
  induction forms generalizing s with
  | nil =>
    cases h with
    | form hread hrest =>
      cases hrest
      exact ⟨_, .nothing, hread⟩
  | cons e forms ih =>
    cases h with
    | form hread hrest =>
      obtain ⟨s₁, hyields, hlast⟩ := ih hrest
      exact ⟨s₁, .form hread hyields, hlast⟩

theorem Session.eval_of_interleaves {g : Session} {source : String} {forms : List Value}
    {r : Except Fault Value} {m' : Machine}
    (h : Interleaves limit g.global (.ofSource source) .noValue m forms r m') :
    g.eval limit source m = (Outcome.ofExcept r, m') :=
  h.evaluates

end Pass

/-- Evaluation in a session is compositional and incremental. A source that is read to its end, then
blanks, then any other source: evaluating the whole is evaluating the one and, if that has a value,
the other, whose value is the result if there is a token in it. Every evaluation is one pass that reads
a form when its turn comes, and there is one such pass only. If forms that have values are followed by
one that cannot be read, exactly these forms are evaluated, and then the fault of the reader is
raised. If a form fails, exactly the forms up to it are evaluated, and nothing that stands behind it
matters. -/
theorem Session.eval_incremental (limit : Nat) (s : Session) :
    (∀ a w b : String, (readForms limit a).failure = none →
      w ≠ "" → (∀ c ∈ w.toList, Text.isBlank c = true) →
      s.eval limit (a ++ w ++ b) = (do
        let v ← s.eval limit a
        let u ← s.eval limit b
        pure (if tokenize b = [] then v else u))) ∧
    (∀ source m, ∃ forms r m',
      Interleaves limit s.global (.ofSource source) .noValue m forms r m' ∧
      s.eval limit source m = (Outcome.ofExcept r, m') ∧
      ∀ forms' r' m'', Interleaves limit s.global (.ofSource source) .noValue m forms' r' m'' →
        forms' = forms ∧ r' = r ∧ m'' = m') ∧
    (∀ source forms stream stream' v f m m',
      (TokenStream.ofSource source).Yields limit forms stream →
      evalForms limit s.global .noValue forms m = (.value v, m') →
      stream.remaining ≠ [] → stream.peek.2.read limit = (.error f, stream') →
      s.eval limit source m = (.fault f, m') ∧
      Interleaves limit s.global (.ofSource source) .noValue m forms (.error f) m') ∧
    ∀ source forms form stream v f m m₁ m₂ m₃,
      (TokenStream.ofSource source).Yields limit (forms ++ [form]) stream →
      evalForms limit s.global .noValue forms m = (.value v, m₁) →
      Run.report limit (.readForm form) m₁ = (.value (), m₂) →
      evaluate limit form s.global m₂ = (.fault f, m₃) →
      s.eval limit source m = (.fault f, m₃) ∧
      Interleaves limit s.global (.ofSource source) .noValue m (forms ++ [form]) (.error f) m₃ := by
  refine ⟨?_, ?_, ?_, ?_⟩
  · intro a w b ha hne hw
    exact evalSource_append ha hne hw b s.global
  · intro source m
    obtain ⟨forms, r, m', hpass⟩ := Interleaves.exists limit s.global (.ofSource source) .noValue m
    exact ⟨forms, r, m', hpass, Session.eval_of_interleaves hpass,
      fun _ _ _ hother => hpass.unique hother⟩
  · intro source forms stream stream' v f m m' hyields hforms hne hread
    have hpass := Interleaves.of_yields hyields hforms (.unread hne hread)
    rw [List.append_nil] at hpass
    exact ⟨Session.eval_of_interleaves hpass, hpass⟩
  · intro source forms form stream v f m m₁ m₂ m₃ hyields hforms hreport hevaluate
    obtain ⟨s₁, hbefore, hlast⟩ := hyields.split_last
    have hpass := Interleaves.of_yields hbefore hforms (.failed hlast hreport hevaluate)
    exact ⟨Session.eval_of_interleaves hpass, hpass⟩

/-- In a new session, a definition and a parenthesis too many: the name is bound when the fault is
raised, whether the source comes in one part or in two. -/
theorem Session.eval_incremental_unopened :
    let s : Session := ⟨0⟩
    let m : Machine := ⟨⟨#[⟨[], none⟩], 0⟩, Log.new .error⟩
    let m' : Machine := ⟨⟨#[⟨[("x", .int 5)], none⟩], 0⟩, Log.new .error⟩
    s.eval 9 ("(define x 5)" ++ "\n" ++ ") x") m = (.fault .unmatchedClose, m') ∧
    s.eval 9 ("(define x 5)" ++ "\n" ++ ") x") = (do
      let v ← s.eval 9 "(define x 5)"
      let u ← s.eval 9 ") x"
      pure (if tokenize ") x" = [] then v else u)) ∧
    s.eval 9 "y )" m = (.fault (.unbound "y"), m) := by
  intro s m m'
  obtain ⟨hparts, -, hunread, hfailed⟩ := Session.eval_incremental 9 s
  let form : Value := .literal [.symbol "define", .symbol "x", .int 5]
  have hform : (TokenStream.ofSource ("(define x 5)" ++ "\n" ++ ") x")).peek.2.read 9 =
      (.ok form, .ofTokens [")", "x"]) := by with_unfolding_all rfl
  have hname : (TokenStream.ofSource "y )").peek.2.read 9 = (.ok (.symbol "y"), .ofTokens [")"]) := by
    with_unfolding_all rfl
  refine ⟨?_, ?_, ?_⟩
  · apply (hunread _ [form] _ (.ofTokens ["x"]) .noValue _ m m' (.form hform .nothing) ?_ ?_ ?_).1
    · with_unfolding_all rfl
    · simp
    · with_unfolding_all rfl
  · apply hparts
    · with_unfolding_all rfl
    · decide
    · intro c hc
      have hfeed : c = '\n' := by simpa using hc
      rw [hfeed]
      decide
  · apply (hfailed _ [] _ _ .noValue _ m m m m (.form hname .nothing) rfl rfl ?_).1
    with_unfolding_all rfl

end Lisplet
