import Mathlib.Logic.Function.Basic
import Lisplet.Proofs.LogLevels
import Lisplet.Proofs.Overrun

/-!
# Streams as lists of tokens

A stream is as good as the list of the tokens that it has still to give. Whatever is asked of it, in
whatever order, and whether or not it can be answered, the answer is the one that the list gives, and
what is left of the stream is what is left of the list. A stream that starts with an empty buffer never
has more than one token in it, because a token is shown only if there is none to show already.

On the list, reading is told by recursive descent: a list form reads its items one after the other, each
of them by the same rule one level further down. The stream is read in one pass that keeps its unfinished
lists on a stack. That both come to the same is one induction on the tokens that are left.

Main definitions: `Taken`, `Tokens.form`, `Tokens.items`, `StreamOp`, `StreamOp.run`, `StreamOp.onList`.
Main statements: `TokenStream.parse_view`, `StreamOp.run_view`, `StreamOp.run_buffer`,
`TokenStream.behaves_as_list`.
-/

namespace Lisplet

/-! ## Reading from a list -/

/-- What reading at the front of a list of tokens comes to, and the tokens that it leaves. -/
structure Taken (α : Type) (ts : List String) where
  outcome : Outcome α
  rest : List String
  suffix : rest <:+ ts
  /-- Whatever is read takes a token. -/
  shorter : ∀ a, outcome = .value a → rest.length < ts.length

namespace Taken

variable {α β : Type} {ts : List String}

/-- Goes on with what was read, at the tokens that are left. -/
def bind (x : Taken α ts) (f : α → (r : List String) → r.length < ts.length → Taken β r) : Taken β ts :=
  match x with
  | ⟨.value a, r, hr, hlt⟩ =>
    let y := f a r (hlt a rfl)
    ⟨y.outcome, y.rest, y.suffix.trans hr, fun b hb => (y.shorter b hb).trans (hlt a rfl)⟩
  | ⟨.fault e, r, hr, _⟩ => ⟨.fault e, r, hr, nofun⟩
  | ⟨.exhausted, r, hr, _⟩ => ⟨.exhausted, r, hr, nofun⟩

def map (f : α → β) (x : Taken α ts) : Taken β ts :=
  match x with
  | ⟨.value a, r, hr, hlt⟩ => ⟨.value (f a), r, hr, fun _ _ => hlt a rfl⟩
  | ⟨.fault e, r, hr, _⟩ => ⟨.fault e, r, hr, nofun⟩
  | ⟨.exhausted, r, hr, _⟩ => ⟨.exhausted, r, hr, nofun⟩

/-- What was read after a first token. -/
def after (t : String) (x : Taken α ts) : Taken α (t :: ts) :=
  ⟨x.outcome, x.rest, x.suffix.trans (List.suffix_cons t ts),
    fun a ha => (x.shorter a ha).trans (Nat.lt_succ_self _)⟩

@[simp]
theorem outcome_after (t : String) (x : Taken α ts) : (x.after t).outcome = x.outcome := rfl

@[simp]
theorem rest_after (t : String) (x : Taken α ts) : (x.after t).rest = x.rest := rfl

/-- The outcome of going on with what was read, or of having failed to read. -/
def conclude (x : Taken α ts) (k : α → List String → Outcome β × List String) :
    Outcome β × List String :=
  match x.outcome with
  | .value a => k a x.rest
  | .fault e => (.fault e, x.rest)
  | .exhausted => (.exhausted, x.rest)

@[simp]
theorem conclude_after (t : String) (x : Taken α ts) (k : α → List String → Outcome β × List String) :
    (x.after t).conclude k = x.conclude k := rfl

@[simp]
theorem conclude_map {γ : Type} (f : α → γ) (x : Taken α ts)
    (k : γ → List String → Outcome β × List String) :
    (x.map f).conclude k = x.conclude fun a r => k (f a) r := by
  rcases x with ⟨_ | _ | _, r, hr, hlt⟩ <;> rfl

theorem conclude_bind {γ : Type} (x : Taken α ts)
    (f : α → (r : List String) → r.length < ts.length → Taken γ r)
    (k : γ → List String → Outcome β × List String) (l : α → List String → Outcome β × List String)
    (h : ∀ a r hr, (f a r hr).conclude k = l a r) : (x.bind f).conclude k = x.conclude l := by
  rcases x with ⟨a | _ | _, r, hr, hlt⟩
  · exact h a r (hlt a rfl)
  · rfl
  · rfl

theorem bind_eq_value {x : Taken α ts} {f : α → (r : List String) → r.length < ts.length → Taken β r}
    {b : β} (h : (x.bind f).outcome = .value b) :
    ∃ a hr, x.outcome = .value a ∧ (f a x.rest hr).outcome = .value b ∧
      (x.bind f).rest = (f a x.rest hr).rest := by
  rcases x with ⟨a | _ | _, r, hr, hlt⟩
  · exact ⟨a, hlt a rfl, rfl, h, rfl⟩
  · cases h
  · cases h

theorem map_eq_value {x : Taken α ts} {f : α → β} {b : β} (h : (x.map f).outcome = .value b) :
    ∃ a, x.outcome = .value a ∧ f a = b ∧ (x.map f).rest = x.rest := by
  rcases x with ⟨a | _ | _, r, hr, hlt⟩
  · cases h
    exact ⟨a, rfl, rfl, rfl⟩
  · cases h
  · cases h

/-- What was read is spelled by the tokens that were taken for it. -/
def Spelled (pieces : α → List Piece) (x : Taken α ts) : Prop :=
  ∀ a, x.outcome = .value a →
    ∃ taken, ts = taken ++ x.rest ∧ taken.map Piece.ofToken? = (pieces a).map some

end Taken

namespace Tokens

/-- The items of a list form up to its closing parenthesis, where `form` reads one item. -/
def items (form : (ts : List String) → Taken Value ts) : (ts : List String) → Taken (List Value) ts
  | [] => ⟨.fault .unexpectedEnd, [], List.suffix_refl _, nofun⟩
  | t :: r =>
    if t = ")" then ⟨.value [], r, List.suffix_cons t r, fun _ _ => Nat.lt_succ_self _⟩
    else (form (t :: r)).bind fun v rest _ => (items form rest).map (v :: ·)
termination_by ts => ts.length
decreasing_by assumption

/-- One form. A list form is read with one level less for its items. -/
def form : Nat → (ts : List String) → Taken Value ts
  | _, [] => ⟨.fault .unexpectedEnd, [], List.suffix_refl _, nofun⟩
  | limit, t :: r =>
    if t = ")" then ⟨.fault .unmatchedClose, r, List.suffix_cons t r, nofun⟩
    else
      match limit with
      | 0 => ⟨.exhausted, t :: r, List.suffix_refl _, nofun⟩
      | limit + 1 =>
        if t = "(" then ((items (form limit) r).map .literal).after t
        else
          match atom t with
          | .ok v => ⟨.value v, r, List.suffix_cons t r, fun _ _ => Nat.lt_succ_self _⟩
          | .error f => ⟨.fault f, r, List.suffix_cons t r, nofun⟩

theorem form_nil (limit : Nat) :
    form limit [] = ⟨.fault .unexpectedEnd, [], List.suffix_refl _, nofun⟩ := by
  cases limit <;> rfl

theorem form_close (limit : Nat) (r : List String) :
    form limit (")" :: r) = ⟨.fault .unmatchedClose, r, List.suffix_cons _ r, nofun⟩ := by
  cases limit <;> rfl

theorem form_zero {t : String} (ht : t ≠ ")") (r : List String) :
    form 0 (t :: r) = ⟨.exhausted, t :: r, List.suffix_refl _, nofun⟩ := by
  simp [form, ht]

theorem form_open (limit : Nat) (r : List String) :
    form (limit + 1) ("(" :: r) = ((items (form limit) r).map .literal).after "(" := rfl

theorem form_atom (limit : Nat) {t : String} (hopen : t ≠ "(") (hclose : t ≠ ")") (r : List String) :
    form (limit + 1) (t :: r) =
      match atom t with
      | .ok v => ⟨.value v, r, List.suffix_cons t r, fun _ _ => Nat.lt_succ_self _⟩
      | .error f => ⟨.fault f, r, List.suffix_cons t r, nofun⟩ := by
  simp [form, hopen, hclose]

theorem items_spelled {form : (ts : List String) → Taken Value ts}
    (hform : ∀ ts, (form ts).Spelled Value.flatten) (ts : List String) :
    (items form ts).Spelled fun vs => flattenAll vs ++ [.closing] := by
  induction hn : ts.length using Nat.strong_induction_on generalizing ts with
  | h n ih =>
    subst hn
    intro vs hvs
    cases ts with
    | nil => simp [items] at hvs
    | cons t r =>
      rw [items] at hvs ⊢
      split at hvs
      · next ht =>
        cases hvs
        exact ⟨[t], by simp [ht], by simp [ht, Piece.ofToken?, flattenAll]⟩
      · next ht =>
        obtain ⟨v, hlt, hv, hmap, hrest⟩ := Taken.bind_eq_value hvs
        obtain ⟨ws, hws, rfl, hrest'⟩ := Taken.map_eq_value hmap
        obtain ⟨taken, htaken, hspelled⟩ := hform _ v hv
        obtain ⟨later, hlater, hspelled'⟩ := ih _ hlt _ rfl ws hws
        refine ⟨taken ++ later, ?_, ?_⟩
        · rw [if_neg ht, hrest, hrest', List.append_assoc, ← hlater, ← htaken]
        · simp [flattenAll, hspelled, hspelled']

/-- A form starts with a token other than a closing parenthesis, and it needs a level. -/
theorem form_eq_value {limit : Nat} {ts : List String} {v : Value}
    (h : (form limit ts).outcome = .value v) : ∃ d t r, limit = d + 1 ∧ ts = t :: r ∧ t ≠ ")" := by
  cases ts with
  | nil => simp [form_nil] at h
  | cons t r =>
    have ht : t ≠ ")" := by
      rintro rfl
      simp [form_close] at h
    cases limit with
    | zero => simp [form_zero ht] at h
    | succ d => exact ⟨d, t, r, rfl, rfl, ht⟩

/-- The tokens that a form takes are the tokens that spell it. -/
theorem form_spelled (limit : Nat) (ts : List String) : (form limit ts).Spelled Value.flatten := by
  induction limit generalizing ts with
  | zero =>
    intro v hv
    obtain ⟨d, _, _, hd, _⟩ := form_eq_value hv
    cases hd
  | succ limit ih =>
    intro v hv
    obtain ⟨_, t, r, _, rfl, ht⟩ := form_eq_value hv
    by_cases hopen : t = "("
    · subst hopen
      rw [form_open, Taken.outcome_after] at hv
      obtain ⟨vs, hvs, rfl, hrest⟩ := Taken.map_eq_value hv
      obtain ⟨taken, htaken, hspelled⟩ := items_spelled ih r vs hvs
      refine ⟨"(" :: taken, ?_, ?_⟩
      · rw [form_open, Taken.rest_after, hrest, List.cons_append, ← htaken]
      · simpa [Value.flatten, Piece.ofToken?] using hspelled
    · rw [form_atom limit hopen ht] at hv ⊢
      cases hatom : atom t with
      | error f => simp [hatom] at hv
      | ok w =>
        simp only [hatom, Outcome.value.injEq] at hv ⊢
        subst hv
        exact ⟨[t], rfl, by simp [flatten_of_atom hatom, Piece.ofToken?, hopen, ht, hatom]⟩

/-- Reading takes tokens from the front, and for a form the tokens that spell it. -/
theorem form_taken (limit : Nat) (ts : List String) :
    ∃ taken, ts = taken ++ (form limit ts).rest ∧
      ∀ v, (form limit ts).outcome = .value v → taken ≠ [] ∧ Spells taken v := by
  by_cases hvalue : ∃ v, (form limit ts).outcome = .value v
  · obtain ⟨v, hv⟩ := hvalue
    obtain ⟨taken, htaken, hspelled⟩ := form_spelled limit ts v hv
    refine ⟨taken, htaken, fun w hw => ⟨?_, ?_⟩⟩
    · have hlt := (form limit ts).shorter v hv
      rintro rfl
      rw [List.nil_append] at htaken
      exact absurd hlt (by rw [← htaken]; exact Nat.lt_irrefl _)
    · cases hv.symm.trans hw
      exact hspelled
  · obtain ⟨taken, htaken⟩ := (form limit ts).suffix
    exact ⟨taken, htaken.symm, fun v hv => absurd ⟨v, hv⟩ hvalue⟩

end Tokens

/-! ## The pass over a stream -/

namespace TokenStream

/-- An answer of a stream next to the tokens that it has still to give. -/
def view {α : Type} (x : α × TokenStream) : α × List String :=
  (x.1, x.2.remaining)

/-- Where reading goes on does not depend on how many tokens were shown. -/
theorem view_accept (limit : Nat) (pending : List (List Value)) (v : Value) {s : TokenStream}
    {r : List String} (hs : s.remaining = r) :
    view (accept limit pending v s) = view (accept limit pending v (ofTokens r)) := by
  cases pending with
  | nil => simp [view, accept, hs]
  | cons items rest =>
    have hsame : s.remaining = (ofTokens r).remaining := hs
    obtain ⟨hform, hleft⟩ := parseFrom_of_remaining limit ((v :: items) :: rest) hsame
    exact Prod.ext hform hleft

/-- Going on inside the list `items` reads the items that are still missing and closes the list. -/
def ReadsItems (limit : Nat) (s : TokenStream) : Prop :=
  ∀ items pending, view (s.parseFrom limit (items :: pending)) =
    (Tokens.items (Tokens.form (limit - (pending.length + 1))) s.remaining).conclude fun vs r =>
      view (accept limit pending (.literal (items.reverse ++ vs)) (ofTokens r))

/-- Where a form is due, the pass reads the form that the descent reads. -/
theorem parseFrom_view_form (limit : Nat) (pending : List (List Value)) (s : TokenStream)
    (hclose : pending = [] ∨ s.remaining.head? ≠ some ")")
    (ih : ∀ s' : TokenStream, s'.remaining.length < s.remaining.length → ReadsItems limit s') :
    view (s.parseFrom limit pending) =
      (Tokens.form (limit - pending.length) s.remaining).conclude fun v r =>
        view (accept limit pending v (ofTokens r)) := by
  cases hs : s.remaining with
  | nil =>
    rw [parseFrom_nil hs, Tokens.form_nil]
    rfl
  | cons t r =>
    obtain ⟨-, hnext⟩ := advance_of_remaining_cons hs
    rw [parseFrom_cons hs]
    by_cases ht : t = ")"
    · -- A closing parenthesis is in place only inside a list.
      subst ht
      obtain rfl : pending = [] := hclose.resolve_right (by simp [hs])
      rw [if_pos rfl, Tokens.form_close]
      simp [view, hnext, Taken.conclude]
    rw [if_neg ht]
    by_cases hlimit : limit ≤ pending.length
    · rw [if_pos hlimit, Nat.sub_eq_zero_of_le hlimit, Tokens.form_zero ht]
      simp [view, hs, Taken.conclude]
    · obtain ⟨d, hd⟩ : ∃ d, limit - pending.length = d + 1 :=
        Nat.exists_eq_succ_of_ne_zero (by omega)
      have hinner : limit - (pending.length + 1) = d := by omega
      rw [if_neg hlimit, hd]
      by_cases hopen : t = "("
      · subst hopen
        have hitems := ih s.advance.2 (by simp [hs]) [] pending
        rw [hinner, hnext] at hitems
        simpa [Tokens.form_open] using hitems
      · rw [if_neg hopen, Tokens.form_atom d hopen ht]
        cases atom t with
        | error f => simp [view, hnext, Taken.conclude]
        | ok v => exact view_accept limit pending v hnext

/-- Inside a list, the pass reads the items that the descent reads. -/
theorem readsItems (limit : Nat) (s : TokenStream) : ReadsItems limit s := by
  -- By induction on the tokens that are left: an item takes at least one of them.
  induction hn : s.remaining.length using Nat.strong_induction_on generalizing s with
  | h n ih =>
    subst hn
    intro items pending
    cases hs : s.remaining with
    | nil =>
      rw [parseFrom_nil hs, Tokens.items]
      rfl
    | cons t r =>
      rw [Tokens.items]
      by_cases ht : t = ")"
      · subst ht
        rw [parseFrom_close items hs, if_pos rfl,
          view_accept limit pending _ (advance_of_remaining_cons hs).2]
        simp [Taken.conclude, listOf]
      · have hform := parseFrom_view_form limit (items :: pending) s (.inr (by simpa [hs] using ht))
          fun s' hlt => ih _ hlt s' rfl
        rw [if_neg ht, hform, hs]
        refine (Taken.conclude_bind _ _ _ _ fun v rest hlt => ?_).symm
        -- The item joins the list under way, and the items after it are read from what it leaves.
        have hlater := ih rest.length (by rwa [hs]) (ofTokens rest) rfl (v :: items) pending
        simpa [accept] using hlater.symm

/-- Reading a form from a stream is reading it from the list of its tokens. -/
theorem parse_view (limit : Nat) (s : TokenStream) :
    view (s.parse limit) =
      ((Tokens.form limit s.remaining).outcome, (Tokens.form limit s.remaining).rest) := by
  have hform := parseFrom_view_form limit [] s (.inl rfl) fun s' _ => readsItems limit s'
  rw [parse, hform]
  simp only [List.length_nil, Nat.sub_zero, Taken.conclude, accept, view, remaining_ofTokens]
  split <;> simp_all

/-! ## The buffer -/

/-- Only an empty buffer is filled. -/
theorem length_buffer_peek {s : TokenStream} (h : s.buffer.length ≤ 1) :
    s.peek.2.buffer.length ≤ 1 := by
  rcases s with ⟨_ | ⟨t, b⟩, _ | ⟨u, r⟩⟩
  · exact h
  · exact Nat.le_refl 1
  · exact h
  · exact h

theorem length_buffer_advance {s : TokenStream} (h : s.buffer.length ≤ 1) :
    s.advance.2.buffer.length ≤ 1 := by
  rcases s with ⟨_ | ⟨t, b⟩, _ | ⟨u, r⟩⟩
  · exact h
  · exact h
  · exact Nat.le_of_succ_le h
  · exact Nat.le_of_succ_le h

theorem length_buffer_due (pending : List (List Value)) {s : TokenStream} (h : s.buffer.length ≤ 1) :
    (s.due pending).buffer.length ≤ 1 := by
  cases pending with
  | nil => exact h
  | cons items rest => exact length_buffer_peek h

/-- Reading a form keeps the bound, however it ends. -/
theorem length_buffer_parseFrom {limit : Nat} {pending : List (List Value)} {s : TokenStream}
    (h : s.buffer.length ≤ 1) : (s.parseFrom limit pending).2.buffer.length ≤ 1 := by
  generalize hts : s.remaining = ts
  induction ts generalizing pending s with
  | nil =>
    rw [parseFrom_nil hts]
    exact Nat.zero_le 1
  | cons t r ih =>
    obtain ⟨-, hnext⟩ := advance_of_remaining_cons hts
    have hadvance := length_buffer_advance h
    have haccept : ∀ rest v, (accept limit rest v s.advance.2).2.buffer.length ≤ 1 := by
      intro rest v
      cases rest with
      | nil => exact hadvance
      | cons items rest => exact ih hadvance hnext
    rw [parseFrom_cons hts]
    split
    · cases pending with
      | nil => exact hadvance
      | cons items rest => exact haccept rest _
    · split
      · exact length_buffer_due pending h
      · split
        · exact ih hadvance hnext
        · split
          · exact hadvance
          · exact haccept pending _

theorem length_buffer_next {limit : Nat} {r : Reader} (h : r.stream.buffer.length ≤ 1) :
    (r.next limit).2.stream.buffer.length ≤ 1 := by
  have hpeek := length_buffer_peek h
  unfold Reader.next
  split
  · exact h
  · split
    · next heq =>
      rw [heq] at hpeek
      exact hpeek
    · next s heq =>
      rw [heq] at hpeek
      have hread : (s.read limit).2.buffer.length ≤ 1 := length_buffer_parseFrom hpeek
      split
      · next hform =>
        rw [hform] at hread
        exact hread
      · next hfault =>
        rw [hfault] at hread
        exact hread

end TokenStream

/-! ## Operations -/

theorem Outcome.value_of_toExcept {α : Type} {activity : Activity} {o : Outcome α} {a : α}
    (h : o.toExcept activity = .ok a) : o = .value a := by
  cases o <;> simp_all [toExcept]

/-- What can be asked of a stream that several readers share. -/
inductive StreamOp where
  | peek
  | advance
  | parse (limit : Nat)
  | read (limit : Nat)
  /-- The next form for the reader with this number. -/
  | next (limit : Nat) (reader : Nat)

/-- What an operation answers with: a token, or a form as that operation reports it. -/
inductive StreamAnswer where
  | token (t : Option String)
  | parsed (o : Outcome Value)
  | form (form : Except Fault Value)
  | next (form : Option (Except Fault Value))

/-- The form that was asked for, if there is one. -/
def StreamAnswer.form? : StreamAnswer → Option Value
  | .parsed (.value v) => some v
  | .form (.ok v) => some v
  | .next (some (.ok v)) => some v
  | _ => none

theorem StreamAnswer.form?_parsed {o : Outcome Value} {v : Value}
    (h : (StreamAnswer.parsed o).form? = some v) : o = .value v := by
  cases o <;> simp_all [form?]

theorem StreamAnswer.form?_form {e : Except Fault Value} {v : Value}
    (h : (StreamAnswer.form e).form? = some v) : e = .ok v := by
  cases e <;> simp_all [form?]

theorem StreamAnswer.form?_next {e : Except Fault Value} {v : Value}
    (h : (StreamAnswer.next (some e)).form? = some v) : e = .ok v := by
  cases e <;> simp_all [form?]

/-- A source of tokens and the readers of it that are finished. -/
structure Shared (σ : Type) where
  source : σ
  finished : Nat → Bool

/-- A source that no reader has finished. -/
def Shared.start {σ : Type} (source : σ) : Shared σ :=
  ⟨source, fun _ => false⟩

/-- A stream that is shared, as the list of its tokens. -/
def Shared.view (x : Shared TokenStream) : Shared (List String) :=
  ⟨x.source.remaining, x.finished⟩

namespace StreamOp

/-- An operation on a stream. -/
def run : StreamOp → Shared TokenStream → Run (StreamAnswer × Shared TokenStream)
  | .peek, x => pure (.token x.source.peek.1, { x with source := x.source.peek.2 })
  | .advance, x => pure (.token x.source.advance.1, { x with source := x.source.advance.2 })
  | .parse limit, x =>
    pure (.parsed (x.source.parse limit).1, { x with source := (x.source.parse limit).2 })
  | .read limit, x =>
    pure (.form (x.source.read limit).1, { x with source := (x.source.read limit).2 })
  | .next limit k, x => do
    let (n, r) ← parseNext limit ⟨x.source, x.finished k⟩
    pure (.next n, ⟨r.stream, Function.update x.finished k r.finished⟩)

/-- The same operation on a list. -/
def onList : StreamOp → Shared (List String) → StreamAnswer × Shared (List String)
  | .peek, x => (.token x.source.head?, x)
  | .advance, x => (.token x.source.head?, { x with source := x.source.tail })
  | .parse limit, x =>
    let y := Tokens.form limit x.source
    (.parsed y.outcome, { x with source := y.rest })
  | .read limit, x =>
    let y := Tokens.form limit x.source
    (.form (y.outcome.toExcept .reading), { x with source := y.rest })
  | .next limit k, x =>
    -- A reader is finished once it has met the end or a form that cannot be read.
    if x.finished k ∨ x.source = [] then
      (.next none, { x with finished := Function.update x.finished k true })
    else
      let y := Tokens.form limit x.source
      let e := y.outcome.toExcept .reading
      (.next (some e), ⟨y.rest, Function.update x.finished k (!e.isOk)⟩)

/-- Operations one after the other, whether or not they fail. -/
def runAll : List StreamOp → Shared TokenStream → Run (List StreamAnswer × Shared TokenStream)
  | [], x => pure ([], x)
  | op :: ops, x => do
    let (answer, x) ← op.run x
    let (answers, x) ← runAll ops x
    pure (answer :: answers, x)

def onListAll : List StreamOp → Shared (List String) → List StreamAnswer × Shared (List String)
  | [], x => ([], x)
  | op :: ops, x =>
    let (answer, x) := op.onList x
    let (answers, x) := onListAll ops x
    (answer :: answers, x)

end StreamOp

/-! ## One operation -/

/-- Asking a reader for its next form reports the form and changes nothing else. -/
theorem parseNext_run (limit : Nat) (r : Reader) (m : Machine) :
    ∃ log, parseNext limit r m = (.value (r.next limit), ⟨m.store, log⟩) := by
  rcases hnext : r.next limit with ⟨n, r'⟩
  rw [parseNext, hnext]
  cases n with
  | none => exact ⟨m.log, rfl⟩
  | some e =>
    cases e with
    | error f => exact ⟨m.log, rfl⟩
    | ok form =>
      obtain ⟨shown, hshown⟩ := describe_of_next (by rw [hnext] : (r.next limit).1 = some (.ok form))
      obtain ⟨log, hlog⟩ := Run.report_of_message (Event.message_readForm hshown) m
      exact ⟨log, Run.bind_of_value _ hlog⟩

theorem TokenStream.read_view (limit : Nat) (s : TokenStream) :
    view (s.read limit) = ((Tokens.form limit s.remaining).outcome.toExcept .reading,
      (Tokens.form limit s.remaining).rest) := by
  have hparse := parse_view limit s
  simp only [view, Prod.mk.injEq] at hparse
  simp [view, read, hparse]

namespace StreamOp

/-- The next form of a reader is the one that the list gives, and the reader is finished when the list
says so. -/
theorem next_view (limit k : Nat) (x : Shared TokenStream) :
    (next limit k).onList x.view =
      let (n, r) := (Reader.mk x.source (x.finished k)).next limit
      (.next n, ⟨r.stream.remaining, Function.update x.finished k r.finished⟩) := by
  rcases x with ⟨s, finished⟩
  by_cases hfinished : finished k = true
  · simp [onList, Shared.view, Reader.next, hfinished]
  rw [Bool.not_eq_true] at hfinished
  have hshown := s.peek_fst
  have hsame := s.remaining_peek
  rcases hpeek : s.peek with ⟨_ | t, s₁⟩
  · have hnil : s.remaining = [] := by
      rw [hpeek] at hshown
      exact List.head?_eq_none_iff.1 hshown.symm
    rw [hpeek] at hsame
    simp [onList, Shared.view, Reader.next, hfinished, hpeek, hnil, hsame]
  · have hne : s.remaining ≠ [] := by
      intro hnil
      simp [hpeek, hnil] at hshown
    have hread := TokenStream.read_view limit s₁
    rw [show s₁.remaining = s.remaining by simpa [hpeek] using hsame] at hread
    rcases hread₁ : s₁.read limit with ⟨f | v, s₂⟩ <;>
      rw [hread₁] at hread <;> obtain ⟨he, hrest⟩ := Prod.mk.inj hread
    · simp [onList, Shared.view, Reader.next, hfinished, hpeek, hne, hread₁, ← he, ← hrest, Except.isOk,
        Except.toBool]
    · simp [onList, Shared.view, Reader.next, hfinished, hpeek, hne, hread₁, ← he, ← hrest, Except.isOk,
        Except.toBool]

/-- An operation on a stream is answered, and it does to the tokens that are left what it does to a
list. -/
theorem run_view (op : StreamOp) (x : Shared TokenStream) (m : Machine) :
    ∃ answer y log, op.run x m = (.value (answer, y), ⟨m.store, log⟩) ∧
      op.onList x.view = (answer, y.view) := by
  cases op with
  | peek =>
    refine ⟨.token x.source.peek.1, ⟨x.source.peek.2, x.finished⟩, m.log, rfl, ?_⟩
    simp [onList, Shared.view]
  | advance =>
    refine ⟨.token x.source.advance.1, ⟨x.source.advance.2, x.finished⟩, m.log, rfl, ?_⟩
    simp [onList, Shared.view]
  | parse limit =>
    obtain ⟨houtcome, hrest⟩ := Prod.mk.inj (TokenStream.parse_view limit x.source)
    refine ⟨.parsed (x.source.parse limit).1, ⟨(x.source.parse limit).2, x.finished⟩, m.log, rfl, ?_⟩
    simp [onList, Shared.view, houtcome, hrest]
  | read limit =>
    obtain ⟨hform, hrest⟩ := Prod.mk.inj (TokenStream.read_view limit x.source)
    refine ⟨.form (x.source.read limit).1, ⟨(x.source.read limit).2, x.finished⟩, m.log, rfl, ?_⟩
    simp [onList, Shared.view, hform, hrest]
  | next limit k =>
    obtain ⟨log, hlog⟩ := parseNext_run limit ⟨x.source, x.finished k⟩ m
    exact ⟨_, _, log, Run.bind_of_value _ hlog, next_view limit k x⟩

/-- No operation leaves more than one token in the buffer, if there was not more than one before. -/
theorem run_buffer {op : StreamOp} {x y : Shared TokenStream} {answer : StreamAnswer} {m m' : Machine}
    (hx : x.source.buffer.length ≤ 1) (h : op.run x m = (.value (answer, y), m')) :
    y.source.buffer.length ≤ 1 := by
  cases op with
  | peek =>
    cases h
    exact TokenStream.length_buffer_peek hx
  | advance =>
    cases h
    exact TokenStream.length_buffer_advance hx
  | parse limit =>
    cases h
    exact TokenStream.length_buffer_parseFrom hx
  | read limit =>
    cases h
    exact TokenStream.length_buffer_parseFrom hx
  | next limit k =>
    obtain ⟨log, hlog⟩ := parseNext_run limit ⟨x.source, x.finished k⟩ m
    rw [run, Run.bind_of_value _ hlog] at h
    cases h
    exact TokenStream.length_buffer_next hx

/-- How the tokens that an operation takes show in its answer. -/
structure Accounts (op : StreamOp) (tokens : List String) (answer : StreamAnswer)
    (taken : List String) : Prop where
  peek : op = .peek → answer = .token tokens.head? ∧ taken = []
  advance : op = .advance → answer = .token tokens.head? ∧ taken = tokens.head?.toList
  /-- A form takes the tokens that spell it. -/
  form : ∀ v, answer.form? = some v → taken ≠ [] ∧ Spells taken v
  /-- A reader without a next form takes nothing. -/
  finished : answer = .next none → taken = []

theorem onList_accounts (op : StreamOp) (x : Shared (List String)) :
    ∃ taken, x.source = taken ++ (op.onList x).2.source ∧
      op.Accounts x.source (op.onList x).1 taken := by
  cases op with
  | peek => exact ⟨[], rfl, by constructor <;> simp [onList, StreamAnswer.form?]⟩
  | advance =>
    refine ⟨x.source.head?.toList, ?_, by constructor <;> simp [onList, StreamAnswer.form?]⟩
    cases hsource : x.source <;> simp [onList, hsource]
  | parse limit =>
    obtain ⟨taken, htaken, hform⟩ := Tokens.form_taken limit x.source
    refine ⟨taken, htaken, by simp, by simp, fun v hv => hform v ?_, by simp [onList]⟩
    exact StreamAnswer.form?_parsed hv
  | read limit =>
    obtain ⟨taken, htaken, hform⟩ := Tokens.form_taken limit x.source
    refine ⟨taken, htaken, by simp, by simp, fun v hv => hform v ?_, by simp [onList]⟩
    exact Outcome.value_of_toExcept (StreamAnswer.form?_form hv)
  | next limit k =>
    by_cases hnone : x.finished k ∨ x.source = []
    · refine ⟨[], by simp [onList, hnone], ?_⟩
      constructor <;> simp [onList, hnone, StreamAnswer.form?]
    · obtain ⟨taken, htaken, hform⟩ := Tokens.form_taken limit x.source
      rw [onList, if_neg hnone]
      refine ⟨taken, htaken, by simp, by simp, fun v hv => hform v ?_, by simp⟩
      exact Outcome.value_of_toExcept (StreamAnswer.form?_next hv)

/-! ## A run of operations -/

/-- One operation: it is answered as on the list, and the tokens that it takes come from the front. -/
theorem run_accounts (op : StreamOp) (x : Shared TokenStream) (m : Machine) :
    ∃ answer y log taken, op.run x m = (.value (answer, y), ⟨m.store, log⟩) ∧
      op.onList x.view = (answer, y.view) ∧ x.source.remaining = taken ++ y.source.remaining ∧
      op.Accounts x.source.remaining answer taken := by
  obtain ⟨answer, y, log, hrun, hlist⟩ := op.run_view x m
  obtain ⟨taken, htaken, haccounts⟩ := op.onList_accounts x.view
  rw [hlist] at htaken haccounts
  exact ⟨answer, y, log, taken, hrun, hlist, htaken, haccounts⟩

/-- A run of operations is answered as on the list. -/
theorem runAll_view (ops : List StreamOp) (x : Shared TokenStream) (m : Machine) :
    ∃ answers y log, runAll ops x m = (.value (answers, y), ⟨m.store, log⟩) ∧
      onListAll ops x.view = (answers, y.view) ∧ y.source.remaining <:+ x.source.remaining := by
  induction ops generalizing x m with
  | nil => exact ⟨[], x, m.log, rfl, rfl, List.suffix_refl _⟩
  | cons op ops ih =>
    obtain ⟨answer, y, log, taken, hrun, hlist, htaken, -⟩ := op.run_accounts x m
    obtain ⟨answers, z, log', hrunAll, hlistAll, hsuffix⟩ := ih y ⟨m.store, log⟩
    refine ⟨answer :: answers, z, log', ?_, ?_, hsuffix.trans ⟨taken, htaken.symm⟩⟩
    · rw [runAll, Run.bind_of_value _ hrun]
      exact Run.bind_of_value _ hrunAll
    · simp only [onListAll, hlist, hlistAll]

/-- Along a run of operations the buffer never has more than one token. -/
theorem runAll_buffer {ops : List StreamOp} {x y : Shared TokenStream} {answers : List StreamAnswer}
    {m m' : Machine} (hx : x.source.buffer.length ≤ 1)
    (h : runAll ops x m = (.value (answers, y), m')) : y.source.buffer.length ≤ 1 := by
  induction ops generalizing x m answers with
  | nil =>
    cases h
    exact hx
  | cons op ops ih =>
    obtain ⟨⟨answer, x₁⟩, m₁, hop, h⟩ := Run.bind_eq_value_iff.1 h
    obtain ⟨⟨later, x₂⟩, m₂, hlater, h⟩ := Run.bind_eq_value_iff.1 h
    cases h
    exact ih (run_buffer hx hop) hlater

end StreamOp

theorem TokenStream.advance_eq_none_iff (s : TokenStream) : s.advance.1 = none ↔ s.remaining = [] := by
  rw [advance_fst, List.head?_eq_none_iff]

/-- A stream behaves as the list of the tokens that it has still to give. Whatever operations were asked
of it, each is answered, and as it is on the list. What is left, the buffer and then what is unread, is a
suffix of the tokens at the start, and the buffer has at most one of them. The next operation takes tokens from its front and accounts for them
in its answer. A stream without tokens stays without. -/
theorem TokenStream.behaves_as_list (tokens : List String) (ops : List StreamOp) (m : Machine) :
    ∃ answers x log,
      StreamOp.runAll ops (.start (ofTokens tokens)) m = (.value (answers, x), ⟨m.store, log⟩) ∧
      StreamOp.onListAll ops (.start tokens) = (answers, x.view) ∧
      x.source.buffer ++ x.source.unread <:+ tokens ∧
      x.source.buffer.length ≤ 1 ∧
      (∀ op m', ∃ answer y log' taken,
        StreamOp.run op x m' = (.value (answer, y), ⟨m'.store, log'⟩) ∧
        op.onList x.view = (answer, y.view) ∧
        x.source.remaining = taken ++ y.source.remaining ∧
        op.Accounts x.source.remaining answer taken) ∧
      (x.source.advance.1 = none ↔ x.source.remaining = []) ∧
      (x.source.advance.1 = none → ∀ more m', ∃ answers' y log',
        StreamOp.runAll more x m' = (.value (answers', y), ⟨m'.store, log'⟩) ∧
        y.source.advance.1 = none) := by
  obtain ⟨answers, x, log, hrun, hlist, hsuffix⟩ :=
    StreamOp.runAll_view ops (.start (ofTokens tokens)) m
  have hend : ∀ more m', x.source.advance.1 = none → ∃ answers' y log',
      StreamOp.runAll more x m' = (.value (answers', y), ⟨m'.store, log'⟩) ∧
      y.source.advance.1 = none := by
    intro more m' hnone
    obtain ⟨answers', y, log', hmore, -, hleft⟩ := StreamOp.runAll_view more x m'
    rw [(advance_eq_none_iff _).1 hnone, List.suffix_nil] at hleft
    exact ⟨answers', y, log', hmore, (advance_eq_none_iff _).2 hleft⟩
  have hstart : (Shared.start (ofTokens tokens)).source.buffer.length ≤ 1 := Nat.zero_le 1
  have hbuffer := StreamOp.runAll_buffer hstart hrun
  exact ⟨answers, x, log, hrun, hlist, hsuffix, hbuffer, fun op m' => op.run_accounts x m',
    advance_eq_none_iff _, fun hnone more m' => hend more m' hnone⟩

/-- Two forms are read in turn, a stray parenthesis is refused and taken, and then nothing is left: neither
for the reader that read the second form, nor for anyone later. A form that is cut off inside a list
leaves the token in the buffer that it was shown last. -/
theorem TokenStream.behaves_as_list_shared :
    (ofTokens ["(", "a", ")"]).parse 1 = (.exhausted, ⟨["a"], [")"]⟩) ∧
    ∃ x log,
      StreamOp.runAll [.parse 2, .peek, .next 1 0, .read 1, .next 1 0]
          (.start (ofTokens ["(", "a", ")", "b", ")"])) (.new .debug) =
        (.value ([.parsed (.value (.literal [.symbol "a"])), .token (some "b"),
          .next (some (.ok (.symbol "b"))), .form (.error .unmatchedClose), .next none], x),
          ⟨Store.empty, log⟩) ∧
      x.source.advance.1 = none ∧
      ∃ answers y log', StreamOp.runAll [.peek, .parse 1] x (.new .debug) =
        (.value (answers, y), ⟨Store.empty, log'⟩) ∧ y.source.advance.1 = none := by
  obtain ⟨answers, x, log, hrun, hlist, -, -, -, hnone, hend⟩ :=
    TokenStream.behaves_as_list ["(", "a", ")", "b", ")"]
      [.parse 2, .peek, .next 1 0, .read 1, .next 1 0] (.new .debug)
  have hanswers : answers = [.parsed (.value (.literal [.symbol "a"])), .token (some "b"),
      .next (some (.ok (.symbol "b"))), .form (.error .unmatchedClose), .next none] := by
    refine (congrArg Prod.fst hlist).symm.trans ?_
    with_unfolding_all rfl
  have hleft : x.source.remaining = [] := by
    refine (congrArg (fun run => run.2.source) hlist).symm.trans ?_
    with_unfolding_all rfl
  have hdone := hnone.2 hleft
  refine ⟨by with_unfolding_all rfl, x, log, ?_, hdone, hend hdone _ _⟩
  rw [hrun, hanswers]
  rfl

end Lisplet
