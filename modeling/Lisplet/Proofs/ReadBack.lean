import Lisplet.Proofs.Numerals
import Lisplet.Proofs.Run
import Lisplet.Source

/-!
# Reading undoes printing

The printed text of a tree is cut into the tokens that spell the tree, wherever the text stands
between blanks or parentheses, and from these tokens the tree is read, inside whatever lists are
under way. So a tree that is printed and read again is the same tree, and quoting its text gives the
text.

Main definitions: `IsName`, `Value.spelling`.
Main statement: `printed_reads_back`.
-/

namespace Lisplet

/-- Whether a character is a parenthesis. -/
def isParen (c : Char) : Bool :=
  c == '(' || c == ')'

/-- Names that are read as symbols: not empty, free of blanks and parentheses, and not starting with
a digit or with a sign and a digit. -/
structure IsName (x : String) : Prop where
  ne_empty : x ≠ ""
  plain : ∀ c ∈ x.toList, Text.isBlank c = false ∧ isParen c = false
  no_integer : ∀ sign c rest, x.toList = sign ++ c :: rest → IsSign sign → c.isDigit = false

mutual

/-- The tokens of a tree. -/
def Value.spelling : Value → List String
  | .list _ items => "(" :: (spellingAll items ++ [")"])
  | v => [String.ofList v.source]

/-- The tokens of trees, one after the other. -/
def spellingAll : List Value → List String
  | [] => []
  | v :: vs => v.spelling ++ spellingAll vs

end

/-! ## Atoms -/

/-- Characters that make up a word. -/
def IsWord (w : List Char) : Prop :=
  w ≠ [] ∧ ∀ c ∈ w, Text.isBlank c = false ∧ isParen c = false

theorem IsName.isWord {x : String} (h : IsName x) : IsWord x.toList :=
  ⟨by simpa using h.ne_empty, h.plain⟩

theorem plain_of_isDigit {c : Char} (h : c.isDigit = true) :
    Text.isBlank c = false ∧ isParen c = false := by
  have hrange : 48 ≤ c.toNat ∧ c.toNat ≤ 57 := by
    simp only [Char.isDigit, Bool.and_eq_true, decide_eq_true_eq, ge_iff_le,
      UInt32.le_iff_toNat_le] at h
    exact h
  constructor
  · simp only [Text.isBlank, Text.inRanges, Text.blankRanges, List.any_cons, List.any_nil]
    simp
    omega
  · simp only [isParen]
    simp
    constructor <;> rintro rfl <;> simp at hrange

theorem isWord_ofInt (n : Int) : IsWord (Text.Numeral.ofInt n) := by
  cases n with
  | ofNat n =>
    exact ⟨Text.Numeral.ofNat_ne_nil n,
      fun c hc => plain_of_isDigit (Text.Numeral.isDigit_of_mem_ofNat hc)⟩
  | negSucc n =>
    refine ⟨by simp [Text.Numeral.ofInt], fun c hc => ?_⟩
    rcases List.mem_cons.1 hc with rfl | hc
    · decide
    · exact plain_of_isDigit (Text.Numeral.isDigit_of_mem_ofNat hc)

/-- The text of an integer of at most 4300 digits is read as the integer. -/
theorem atom_ofInt {n : Int} (short : (Nat.toDigits 10 n.natAbs).length ≤ 4300) :
    atom (String.ofList (Text.Numeral.ofInt n)) = .ok (.int n) := by
  have hnumeral : IsNumeral 0 n (Text.Numeral.ofInt n) := Text.Numeral.padded_zero n ▸ .plain
  exact atom_eq_int_iff.2 ⟨0, _, [], by rw [List.append_nil], hnumeral, by rwa [Nat.zero_add], by simp⟩

theorem IsName.not_startsWithDigit {x : String} (h : IsName x) : ¬ StartsWithDigit x := by
  rintro ⟨sign, c, rest, hcs, hsign, hc⟩
  rw [h.no_integer sign c rest hcs hsign] at hc
  cases hc

/-- A word that does not start with a digit behind its sign is a name. -/
theorem IsWord.isName {x : String} (h : IsWord x.toList) (hnone : ¬ StartsWithDigit x) : IsName x :=
  ⟨by simpa using h.1, h.2, fun sign c rest hcs hsign =>
    Bool.eq_false_iff.2 fun hc => hnone ⟨sign, c, rest, hcs, hsign, hc⟩⟩

/-- Whether a text is a name can be seen from its characters. -/
theorem isName_iff {x : String} :
    IsName x ↔ x ≠ "" ∧ (x.toList.all fun c => !Text.isBlank c && !isParen c) = true ∧
      (splitSign x.toList).2.head?.all (fun c => !c.isDigit) = true := by
  have hnone : ¬ StartsWithDigit x ↔
      (splitSign x.toList).2.head?.all (fun c => !c.isDigit) = true := by
    rw [startsWithDigit_iff]
    cases (splitSign x.toList).2.head? <;> simp
  rw [← hnone]
  constructor
  · intro h
    exact ⟨h.ne_empty, by simpa using h.plain, h.not_startsWithDigit⟩
  · rintro ⟨hne, hplain, hdigit⟩
    exact IsWord.isName ⟨by simpa using hne, by simpa using hplain⟩ hdigit

instance : DecidablePred IsName :=
  fun _ => decidable_of_iff _ isName_iff.symm

/-- A name that does not start with an integer is read as a symbol. -/
theorem atom_of_isName {x : String} (h : IsName x) : atom x = .ok (.symbol x) :=
  atom_of_not_startsWithDigit h.not_startsWithDigit

/-! ## Words -/

theorem isBlank_of_isParen {c : Char} (h : isParen c = true) : Text.isBlank c = false := by
  simp only [isParen, Bool.or_eq_true, beq_iff_eq] at h
  rcases h with rfl | rfl <;> decide

/-- A text that starts with a blank, or is empty: a word in front of it ends there. -/
def Separated (r : List Char) : Prop :=
  ∀ c ∈ r.head?, Text.isBlank c = true

/-- Going over a text twice, for the opening and then for the closing parentheses, comes to setting off
every parenthesis in one go: the first time adds spaces and opening parentheses only, and the second time
leaves these alone. -/
theorem spaceParens_eq_flatMap (s : List Char) :
    spaceParens s = s.flatMap fun c => if isParen c then [' ', c, ' '] else [c] := by
  have hchar : ∀ c, replaceChar ')' [' ', ')', ' '] (if c = '(' then [' ', '(', ' '] else [c]) =
      if isParen c then [' ', c, ' '] else [c] := by
    intro c
    by_cases hopen : c = '('
    · subst hopen
      rfl
    by_cases hclose : c = ')'
    · subst hclose
      rfl
    · simp [replaceChar, isParen, hopen, hclose]
  have hfused : spaceParens s = s.flatMap fun c =>
      replaceChar ')' [' ', ')', ' '] (if c = '(' then [' ', '(', ' '] else [c]) :=
    List.flatMap_assoc
  rw [hfused]
  simp only [hchar]

@[simp]
theorem spaceParens_nil : spaceParens [] = [] :=
  rfl

theorem spaceParens_cons (c : Char) (s : List Char) : spaceParens (c :: s) =
    (if isParen c then [' ', c, ' '] else [c]) ++ spaceParens s := by
  rw [spaceParens_eq_flatMap, spaceParens_eq_flatMap, List.flatMap_cons]

theorem spaceParens_append (s r : List Char) :
    spaceParens (s ++ r) = spaceParens s ++ spaceParens r := by
  simp only [spaceParens_eq_flatMap, List.flatMap_append]

-- The lemmas above say all there is to know of it, and matching need not look inside any more.
attribute [local irreducible] spaceParens

theorem spaceParens_of_isWord {w : List Char} (h : IsWord w) : spaceParens w = w := by
  have hplain := h.2
  clear h
  induction w with
  | nil => exact spaceParens_nil
  | cons c w ih =>
    obtain ⟨⟨-, hc⟩, hw⟩ := List.forall_mem_cons.1 hplain
    have hcons : spaceParens (c :: w) = c :: spaceParens w := by simp [spaceParens_cons, hc]
    rw [hcons, ih hw]

theorem wordsFrom_append {w : List Char} (h : ∀ c ∈ w, Text.isBlank c = false)
    (acc r : List Char) : Text.wordsFrom acc (w ++ r) = Text.wordsFrom (w.reverse ++ acc) r := by
  induction w generalizing acc with
  | nil => rfl
  | cons c w ih =>
    obtain ⟨hc, hw⟩ := List.forall_mem_cons.1 h
    simp [Text.wordsFrom, hc, ih hw]

theorem wordsFrom_of_separated {acc r : List Char} (hacc : acc ≠ []) (hr : Separated r) :
    Text.wordsFrom acc r = acc.reverse :: Text.wordsFrom [] r := by
  cases r with
  | nil => simp [Text.wordsFrom, hacc]
  | cons c r =>
    have hc : Text.isBlank c = true := hr c (by simp)
    simp [Text.wordsFrom, hc, hacc]

/-- Behind a text that is followed by a blank, or by nothing, no word goes on. -/
theorem wordsFrom_append_separated {r : List Char} (hr : Separated r) (acc s : List Char) :
    Text.wordsFrom acc (s ++ r) = Text.wordsFrom acc s ++ Text.words r := by
  induction s generalizing acc with
  | nil =>
    by_cases hacc : acc = []
    · simp [hacc, Text.wordsFrom, Text.words]
    · -- The word under way ends here, in both texts.
      rw [List.nil_append, wordsFrom_of_separated hacc hr]
      simp [hacc, Text.wordsFrom, Text.words]
  | cons c s ih =>
    simp only [List.cons_append, Text.wordsFrom]
    split
    · split <;> simp [ih]
    · exact ih (c :: acc)

/-- Texts between which no token goes on have the tokens of the one and then those of the other. -/
theorem tokens_append {b : List Char} (hb : Separated (spaceParens b)) (a : List Char) :
    tokens (a ++ b) = tokens a ++ tokens b := by
  rw [tokens, spaceParens_append]
  exact wordsFrom_append_separated hb [] (spaceParens a)

/-- A word in front of a blank or the end is the first word. -/
theorem words_isWord_append {w r : List Char} (h : IsWord w) (hr : Separated r) :
    Text.words (w ++ r) = w :: Text.words r := by
  have hplain : ∀ c ∈ w, Text.isBlank c = false := fun c hc => (h.2 c hc).1
  rw [Text.words, wordsFrom_append hplain, List.append_nil,
    wordsFrom_of_separated (by simpa using h.1) hr, List.reverse_reverse, Text.words]

theorem words_cons_blank {c : Char} (h : Text.isBlank c = true) (r : List Char) :
    Text.words (c :: r) = Text.words r := by
  simp [Text.words, Text.wordsFrom, h]

/-- A parenthesis is a word wherever it stands, since it is set off by spaces. -/
theorem words_paren {c : Char} (hc : isParen c = true) (s r : List Char) :
    Text.words (spaceParens (c :: s) ++ r) = [c] :: Text.words (spaceParens s ++ r) := by
  have hspace : spaceParens (c :: s) = ' ' :: c :: ' ' :: spaceParens s := by
    simp [spaceParens_cons, hc]
  have hblank : Text.isBlank c = false := isBlank_of_isParen hc
  -- The space in front ends nothing, and the one behind ends the word that the parenthesis is.
  rw [hspace]
  simp [Text.words, Text.wordsFrom, hblank, show Text.isBlank ' ' = true by decide]

theorem isParen_of_isBlank {c : Char} (h : Text.isBlank c = true) : isParen c = false := by
  rw [Bool.eq_false_iff]
  intro hparen
  rw [isBlank_of_isParen hparen] at h
  cases h

/-- A blank in front of a text adds no token. -/
theorem tokens_cons_blank {c : Char} (h : Text.isBlank c = true) (r : List Char) :
    tokens (c :: r) = tokens r := by
  have hcons : spaceParens (c :: r) = c :: spaceParens r := by
    simp [spaceParens_cons, isParen_of_isBlank h]
  rw [tokens, hcons, words_cons_blank h, tokens]

/-- A parenthesis in front of a text is the first token. -/
theorem tokens_cons_paren {c : Char} (h : isParen c = true) (r : List Char) :
    tokens (c :: r) = [c] :: tokens r := by
  have hwords := words_paren h r []
  rwa [List.append_nil, List.append_nil] at hwords

/-- Texts with a space between each two are cut into the tokens of the first, then those of the
second, and so on. -/
theorem words_spaced {vs : List Value} {r : List Char} (hr : Separated r)
    (h : ∀ v ∈ vs, ∀ r, Separated r → (Text.words (spaceParens v.source ++ r)).map String.ofList =
      v.spelling ++ (Text.words r).map String.ofList) :
    (Text.words (spaceParens (spaced (sourceAll vs)) ++ r)).map String.ofList =
      spellingAll vs ++ (Text.words r).map String.ofList := by
  induction vs with
  | nil => simp [sourceAll, spaced, spellingAll]
  | cons v vs ih =>
    obtain ⟨hv, hvs⟩ := List.forall_mem_cons.1 h
    cases vs with
    -- The last text has no space behind it: what separates it is what follows the whole.
    | nil => simpa [sourceAll, spaced, spellingAll] using hv r hr
    | cons w ws =>
      have hsplit : spaced (sourceAll (v :: w :: ws)) =
          v.source ++ ' ' :: spaced (sourceAll (w :: ws)) := by
        simp [spaced, sourceAll, List.intercalate_cons_cons]
      have hspace : ∀ s, spaceParens (' ' :: s) = ' ' :: spaceParens s := spaceParens_cons ' '
      have hblank : Text.isBlank ' ' = true := by decide
      rw [hsplit, spaceParens_append, hspace, List.append_assoc, List.cons_append,
        hv _ (by simp [Separated, hblank]), words_cons_blank hblank, ih hvs]
      simp [spellingAll]

/-- The text of a tree is cut into the tokens of the tree. -/
theorem words_source {v : Value} {r : List Char} (h : IsTree IsName v) (hr : Separated r) :
    (Text.words (spaceParens v.source ++ r)).map String.ofList =
      v.spelling ++ (Text.words r).map String.ofList := by
  induction h generalizing r with
  | @int n short =>
    have hword : IsWord (Value.int n).source := isWord_ofInt n
    rw [spaceParens_of_isWord hword, words_isWord_append hword hr]
    rfl
  | @symbol x name =>
    have hword : IsWord (Value.symbol x).source := name.isWord
    rw [spaceParens_of_isWord hword, words_isWord_append hword hr]
    rfl
  | @list id items each ih =>
    -- The closing parenthesis separates the last item from what follows.
    have hclose : Separated (spaceParens [')'] ++ r) := by
      simp [Separated, spaceParens_cons, isParen]
      decide
    have hitems := words_spaced hclose fun v hv r hr => ih v hv hr
    rw [Value.source, List.cons_append, words_paren (by decide), spaceParens_append,
      List.append_assoc, List.map_cons, hitems, words_paren (by decide)]
    simp [Value.spelling]

theorem tokenize_source {v : Value} (h : IsTree IsName v) :
    tokenize (String.ofList v.source) = v.spelling := by
  have hwords := words_source (r := []) h (by simp [Separated])
  simpa [tokenize, tokens, Text.words, Text.wordsFrom] using hwords

/-! ## Forms -/

theorem IsWord.ofList_ne {w : List Char} (h : IsWord w) {c : Char} (hc : isParen c = true) :
    String.ofList w ≠ String.ofList [c] := by
  intro heq
  rw [String.ofList_inj] at heq
  have hplain := (h.2 c (by simp [heq])).2
  exact absurd (hplain.symm.trans hc) (by decide)

open TokenStream in
theorem parseFrom_word {limit : Nat} {pending : List (List Value)} {w : List Char} {v : Value}
    {s : TokenStream} {r : List String} (hw : IsWord w) (hatom : atom (String.ofList w) = .ok v)
    (hdepth : pending.length < limit) (hs : s.remaining = String.ofList w :: r) :
    s.parseFrom limit pending = accept limit pending v s.advance.2 :=
  parseFrom_atom hdepth (hw.ofList_ne (c := '(') (by decide))
    (hw.ofList_ne (c := ')') (by decide)) hatom hs

open TokenStream in
/-- The tokens of trees are read as the next items of the innermost list. -/
theorem parseFrom_spellingAll {limit : Nat} {pending : List (List Value)} {vs : List Value}
    (h : ∀ v ∈ vs, ∀ items s r, s.remaining = v.spelling ++ r →
      parseFrom limit (items :: pending) s =
        accept limit (items :: pending) v.written (s.skip v.spelling.length))
    (items : List Value) {s : TokenStream} {r : List String} (hs : s.remaining = spellingAll vs ++ r) :
    s.parseFrom limit (items :: pending) =
      (s.skip (spellingAll vs).length).parseFrom limit
        (((writtenAll vs).reverse ++ items) :: pending) := by
  induction vs generalizing items s with
  | nil => rfl
  | cons v vs ih =>
    obtain ⟨hv, hvs⟩ := List.forall_mem_cons.1 h
    rw [hv items s (spellingAll vs ++ r) (by simp [hs, spellingAll]), accept, ih hvs]
    · simp [writtenAll, spellingAll, skip_add]
    · simp [hs, spellingAll]

open TokenStream in
/-- The tokens of a tree are read as the tree, inside whatever lists are under way. -/
theorem parseFrom_spelling {limit : Nat} {v : Value} (h : IsTree IsName v)
    (pending : List (List Value)) (hn : pending.length + v.nesting < limit) {s : TokenStream}
    {r : List String} (hs : s.remaining = v.spelling ++ r) :
    s.parseFrom limit pending = accept limit pending v.written (s.skip v.spelling.length) := by
  induction h generalizing pending s r with
  | @int n short =>
    exact parseFrom_word (isWord_ofInt n) (atom_ofInt short) (by omega) hs
  | @symbol x name =>
    have hatom : atom (String.ofList x.toList) = .ok (.symbol x) := by
      rw [String.ofList_toList]
      exact atom_of_isName name
    exact parseFrom_word name.isWord hatom (by omega) hs
  | @list id items each ih =>
    have hitems : ∀ v ∈ items, v.nesting < limit - pending.length - 1 := by
      apply nestingAll_le_iff.1
      have : (Value.list id items).nesting = nestingAll items := rfl
      omega
    have hopen : s.remaining = "(" :: (spellingAll items ++ ")" :: r) := by
      simp [hs, Value.spelling]
    obtain ⟨-, hnext⟩ := advance_of_remaining_cons hopen
    have hclose : (s.advance.2.skip (spellingAll items).length).remaining = ")" :: r := by
      simp [hopen]
    -- Open the list, read its items one level deeper, and close it.
    rw [parseFrom_open (by omega) hopen, parseFrom_spellingAll (fun v hv acc s r hs =>
      ih v hv (acc :: pending) (by
        have := hitems v hv
        simp only [List.length_cons]
        omega) hs) [] hnext, parseFrom_close _ hclose]
    have hskip : (s.advance.2.skip (spellingAll items).length).advance.2 =
        s.skip (Value.list id items).spelling.length := by
      rw [show (Value.list id items).spelling.length = (spellingAll items).length + 1 + 1 by
        simp [Value.spelling], skip, skip_add]
      rfl
    rw [hskip]
    simp [listOf, Value.written]

/-- The first form in the text of a tree is the tree, and nothing is left over. -/
theorem read_source {limit : Nat} {v : Value} (h : IsTree IsName v) (hn : v.nesting < limit)
    {s : TokenStream} (hs : s.remaining = tokenize (String.ofList v.source)) :
    s.read limit = (.ok v.written, TokenStream.ofTokens []) := by
  have hspelled : s.remaining = v.spelling ++ [] := by rw [hs, tokenize_source h, List.append_nil]
  have hparse := parseFrom_spelling h [] (by simpa using hn) hspelled
  have hnothing : s.skip v.spelling.length = .ofTokens [] :=
    TokenStream.eq_ofTokens_nil (by simp [hspelled])
  simp [TokenStream.read, TokenStream.parse, hparse, TokenStream.accept, Outcome.toExcept, hnothing]

namespace TokenStream

variable {limit : Nat} {s s' : TokenStream} {v : Value}

theorem readAll_of_nil (h : s.remaining = []) : s.readAll limit = ⟨[], none⟩ := by
  have hpeek : s.peek.1 = none := by simp [h]
  rw [readAll]
  split
  · rfl
  · simp_all

theorem readAll_of_read (hs : s.remaining ≠ []) (h : s.peek.2.read limit = (.ok v, s')) :
    s.readAll limit = ⟨v :: (s'.readAll limit).forms, (s'.readAll limit).failure⟩ := by
  rw [readAll]
  split
  · rename_i hnone
    rw [peek_fst, List.head?_eq_none_iff] at hnone
    exact absurd hnone hs
  · split <;> simp_all

end TokenStream

theorem Value.spelling_ne_nil (v : Value) : v.spelling ≠ [] := by
  cases v <;> simp [Value.spelling]

/-- The text of a tree holds one form, the tree. -/
theorem readForms_source {limit : Nat} {v : Value} (h : IsTree IsName v) (hn : v.nesting < limit) :
    readForms limit (String.ofList v.source) = ⟨[v.written], none⟩ := by
  have hremaining : (TokenStream.ofSource (String.ofList v.source)).remaining =
      tokenize (String.ofList v.source) := rfl
  have hne : (TokenStream.ofSource (String.ofList v.source)).remaining ≠ [] := by
    rw [hremaining, tokenize_source h]
    exact v.spelling_ne_nil
  have hread := read_source h hn ((TokenStream.remaining_peek _).trans hremaining)
  rw [readForms, TokenStream.readAll_of_read hne hread, TokenStream.readAll_of_nil rfl]

/-! ## On a machine -/

section Machine

variable {limit : Nat} {v : Value}

theorem parseFirst_source (h : IsTree IsName v) (hn : v.nesting < limit) (store : Store) :
    (parseFirst limit (String.ofList v.source)).Ends store (.ok v.written) store := by
  have hread : readForm limit (String.ofList v.source) = .ok v.written := by
    rw [readForm, read_source h hn rfl]
  obtain ⟨text, htext⟩ := h.written.describe_eq (v.nesting_written.symm ▸ hn)
  refine .bind (.lift (congrArg Outcome.ofExcept hread) store) ?_
  exact .bind (.report (Event.message_parsed htext) store) (.pure _ store)

theorem parseAll_source (h : IsTree IsName v) (hn : v.nesting < limit) (store : Store) :
    (parseAll limit (String.ofList v.source)).Ends store (.ok ⟨[v.written], none⟩) store := by
  obtain ⟨text, htext⟩ := h.written.describe_eq (v.nesting_written.symm ▸ hn)
  rw [parseAll, readForms_source h hn]
  exact .bind (.bind (.report (Event.message_readForm htext) store) (.pure _ store)) (.pure _ store)

/-- A quoted form evaluates to what is quoted, in every frame. -/
theorem evaluate_quote (hpos : 0 < limit) (i : FrameId) (store : Store) :
    (evaluate limit (.literal [.symbol "quote", v]) i).Ends store (.ok v) store := by
  obtain ⟨l, rfl⟩ : ∃ l, limit = l + 1 := ⟨limit - 1, by omega⟩
  have hkeyword : (Value.symbol "quote").keyword? = some .quote := rfl
  have hmessage : (Event.keyword .quote).message l = .value "special form quote" := rfl
  refine .guard .evaluating ?_
  rw [eval]
  simp only [evalStep, hkeyword]
  exact .bind (.report hmessage store) (.pure v store)

theorem runFirst_quote_source (h : IsTree IsName v) (hn : v.nesting + 1 < limit) (i : FrameId)
    (store : Store) :
    (runFirst limit ("(quote " ++ String.ofList v.source ++ ")") i).Ends store
      (.ok (String.ofList v.source)) store := by
  -- The quoted text is itself the text of a tree, one level deeper.
  have hname : IsName "quote" := by decide
  have hquote : IsTree IsName (.literal [.symbol "quote", v]) := by
    refine .list fun w hw => ?_
    rcases (by simpa using hw : w = .symbol "quote" ∨ w = v) with rfl | rfl
    · exact .symbol hname
    · exact h
  have hdepth : (Value.literal [.symbol "quote", v]).nesting < limit := by
    simp [Value.nesting, nestingAll]
    omega
  have hsource : "(quote " ++ String.ofList v.source ++ ")" =
      String.ofList (Value.literal [.symbol "quote", v]).source := by
    apply String.toList_injective
    simp [Value.source, sourceAll, spaced, List.intercalate_cons_cons]
  have hprinted : v.written.printed limit = .ok (String.ofList v.source) := by
    -- What was read has lost the identities of its lists, but these are not printed.
    rw [h.written.printed_eq (by rw [v.nesting_written]; omega), v.source_written]
  rw [hsource]
  have heval : (evalFirst limit (String.ofList (Value.literal [.symbol "quote", v]).source) i).Ends
      store (.ok v.written) store :=
    .bind (parseFirst_source hquote hdepth store) (evaluate_quote (by omega) i store)
  exact .bind heval (.lift (congrArg Outcome.ofExcept hprinted) store)

/-- Reading undoes printing. A tree of integers of at most 4300 digits, symbols that are names, and
lists, nested below the depth limit, is printed as a text; the first form of the text is the tree
and there is no other, and no token is left over. If quoting it still nests below the limit, the
text quoted evaluates to something that is printed as the text again, in every frame. -/
theorem printed_reads_back (limit : Nat) (t : Value) (ht : IsTree IsName t)
    (hn : t.nesting < limit) :
    ∃ s, t.printed limit = .ok s ∧
      (∀ store, (parseFirst limit s).Ends store (.ok t.written) store) ∧
      (∀ store, (parseAll limit s).Ends store (.ok ⟨[t.written], none⟩) store) ∧
      ((TokenStream.ofSource s).read limit).2.remaining = [] ∧
      t.same limit t.written = .value true ∧
      (t.nesting + 1 < limit → ∀ i store,
        (runFirst limit ("(quote " ++ s ++ ")") i).Ends store (.ok s) store) := by
  refine ⟨String.ofList t.source, ht.printed_eq hn, parseFirst_source ht hn, parseAll_source ht hn,
    ?_, ht.same_written hn, runFirst_quote_source ht⟩
  rw [read_source ht hn rfl]
  rfl

end Machine

/-- A list made as a program ran, with a negative integer, a symbol that starts with a sign, and an
empty list in it. -/
private def signedTree : Value :=
  .list (some 4) [.int (-12), .symbol "-x", .literal []]

theorem printed_reads_back_signed :
    IsTree IsName signedTree ∧ signedTree.nesting + 1 < 3 ∧
      signedTree.printed 3 = .ok "(-12 -x ())" ∧
      ∀ i store, (runFirst 3 "(quote (-12 -x ()))" i).Ends store (.ok "(-12 -x ())") store := by
  have hname : IsName "-x" := by decide
  have htree : IsTree IsName signedTree := by
    refine .list fun v hv => ?_
    simp only [List.mem_cons, List.not_mem_nil, or_false] at hv
    rcases hv with rfl | rfl | rfl
    · exact .int (by decide)
    · exact .symbol hname
    · exact .list (by simp)
  obtain ⟨s, hs, -, -, -, -, hrun⟩ := printed_reads_back 3 signedTree htree (by decide)
  have htext : signedTree.printed 3 = .ok "(-12 -x ())" := by
    rw [htree.printed_eq (by decide)]
    rfl
  obtain rfl : s = "(-12 -x ())" := Except.ok.inj (hs.symm.trans htext)
  exact ⟨htree, by decide, htext, hrun (by decide)⟩

end Lisplet
