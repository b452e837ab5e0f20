import Lisplet.Proofs.ReadBack

/-!
# The tokens of a text

A text is cut into tokens in three steps: spaces are put around the opening parentheses, then around the
closing ones, and the words of what comes out are taken. Here the same is told without these steps. A
scanner goes over the text once, skips blanks, takes every parenthesis alone, and otherwise takes the
longest run of characters that are neither. And without any scanner: the tokens are what stands in the text
at certain places, namely all parentheses and all runs that cannot be made longer, in the order of their
places.

Main definitions: `Scans`, `TokenAt`, `Breaks`. Main statements: `scans_tokens`, `token_cases`,
`tokens_append_of_breaks`, `TokenAt.append_iff`, `tokenize_maximal_runs`.
-/

namespace Lisplet

/-- Characters that belong to no run: blanks and parentheses. -/
def isBoundary (c : Char) : Bool :=
  Text.isBlank c || isParen c

theorem isBoundary_eq_false_iff {c : Char} :
    isBoundary c = false ↔ Text.isBlank c = false ∧ isParen c = false := by
  simp [isBoundary]

theorem IsWord.not_boundary {w : List Char} (h : IsWord w) {c : Char} (hc : c ∈ w) :
    isBoundary c = false :=
  isBoundary_eq_false_iff.2 (h.2 c hc)

/-- No run goes on from the first text to the second one: what the one ends with, or what the other starts
with, is a boundary. -/
def Breaks (a b : List Char) : Prop :=
  ∀ c ∈ a.getLast?, ∀ d ∈ b.head?, isBoundary c = true ∨ isBoundary d = true

/-! ## The scanner -/

/-- A scanner that goes over a text from left to right and takes the longest run that it can. -/
inductive Scans : List Char → List (List Char) → Prop where
  | nil : Scans [] []
  | blank {c : Char} {r : List Char} {ts : List (List Char)} :
      Text.isBlank c = true → Scans r ts → Scans (c :: r) ts
  | paren {c : Char} {r : List Char} {ts : List (List Char)} :
      isParen c = true → Scans r ts → Scans (c :: r) ([c] :: ts)
  | run {w r : List Char} {ts : List (List Char)} :
      IsWord w → (∀ c ∈ r.head?, isBoundary c = true) → Scans r ts → Scans (w ++ r) (w :: ts)

/-- Where a text starts with a boundary, the word before it ends. -/
theorem separated_of_boundary {r : List Char} (h : ∀ c ∈ r.head?, isBoundary c = true) :
    Separated (spaceParens r) := by
  cases r with
  | nil => simp [Separated]
  | cons c r =>
    have hc : isBoundary c = true := h c (by simp)
    by_cases hparen : isParen c = true
    · -- The parenthesis has a space in front of it.
      simp [Separated, spaceParens_cons, hparen]
      decide
    · have hblank : Text.isBlank c = true := by simpa [isBoundary, hparen] using hc
      simp [Separated, spaceParens_cons, hparen, hblank]

theorem tokens_isWord {w : List Char} (h : IsWord w) : tokens w = [w] := by
  have hwords := words_isWord_append (r := []) h (by simp [Separated])
  rw [List.append_nil] at hwords
  rw [tokens, spaceParens_of_isWord h, hwords]
  rfl

/-- The tokens of a text are what the scanner takes. -/
theorem scans_tokens (text : List Char) : Scans text (tokens text) := by
  induction hlen : text.length using Nat.strongRecOn generalizing text with
  | ind k ih =>
    cases text with
    | nil => exact .nil
    | cons c r =>
      have hr : Scans r (tokens r) := ih r.length (by simp [← hlen]) r rfl
      by_cases hblank : Text.isBlank c = true
      · rw [tokens_cons_blank hblank]
        exact .blank hblank hr
      by_cases hparen : isParen c = true
      · rw [tokens_cons_paren hparen]
        exact .paren hparen hr
      -- The run is taken up to the next boundary, where the scanner goes on.
      let w := (c :: r).takeWhile fun d => !isBoundary d
      let rest := (c :: r).dropWhile fun d => !isBoundary d
      have hsplit : w ++ rest = c :: r := List.takeWhile_append_dropWhile
      have hstart : isBoundary c = false := by simp [isBoundary, hblank, hparen]
      have hword : IsWord w := by
        refine ⟨by simp [w, hstart], fun d hd => ?_⟩
        have hplain := List.all_eq_true.1 List.all_takeWhile d hd
        exact isBoundary_eq_false_iff.1 (by simpa using hplain)
      have hrest : ∀ d ∈ rest.head?, isBoundary d = true := by
        intro d hd
        have hstop := List.head?_dropWhile_not (fun d => !isBoundary d) (c :: r)
        rw [Option.mem_def.1 hd] at hstop
        simpa using hstop
      have hshort : rest.length < k := by
        have hlength := congrArg List.length hsplit
        have hpos : 0 < w.length := List.length_pos_iff.2 hword.1
        rw [List.length_append] at hlength
        omega
      rw [← hsplit, tokens_append (separated_of_boundary hrest), tokens_isWord hword]
      exact .run hword hrest (ih rest.length hshort rest rfl)

theorem Scans.paren_or_isWord {text token : List Char} {ts : List (List Char)} (h : Scans text ts)
    (hmem : token ∈ ts) : (∃ c, isParen c = true ∧ token = [c]) ∨ IsWord token := by
  induction h with
  | nil => cases hmem
  | blank _ _ ih => exact ih hmem
  | @paren c _ _ hc _ ih =>
    rcases List.mem_cons.1 hmem with rfl | hmem
    · exact Or.inl ⟨c, hc, rfl⟩
    · exact ih hmem
  | run hword _ _ ih =>
    rcases List.mem_cons.1 hmem with rfl | hmem
    · exact Or.inr hword
    · exact ih hmem

/-- A token is a parenthesis, or it has neither blanks nor parentheses in it. -/
theorem token_cases {source t : String} (h : t ∈ tokenize source) :
    t = "(" ∨ t = ")" ∨ IsWord t.toList := by
  obtain ⟨cs, hcs, rfl⟩ := List.mem_map.1 h
  rcases (scans_tokens source.toList).paren_or_isWord hcs with ⟨c, hparen, rfl⟩ | hword
  · have hc : c = '(' ∨ c = ')' := by simpa [isParen] using hparen
    rcases hc with rfl | rfl
    · exact Or.inl rfl
    · exact Or.inr (Or.inl rfl)
  · rw [String.toList_ofList]
    exact Or.inr (Or.inr hword)

/-- Texts between which no run goes on have the tokens of the one and then those of the other. -/
theorem tokens_append_of_breaks {a b : List Char} (h : Breaks a b) :
    tokens (a ++ b) = tokens a ++ tokens b := by
  have hcons : ∀ {c : Char} (r : List Char), isBoundary c = true → tokens (c :: r) = tokens [c] ++ tokens r := by
    intro c r hc
    by_cases hblank : Text.isBlank c = true
    · rw [tokens_cons_blank hblank, tokens_cons_blank hblank]
      rfl
    · have hparen : isParen c = true := by simpa [isBoundary, hblank] using hc
      rw [tokens_cons_paren hparen, tokens_cons_paren hparen]
      rfl
  have hbefore : ∀ {c : Char} (s r : List Char), isBoundary c = true →
      tokens (s ++ c :: r) = tokens s ++ tokens (c :: r) := fun s r hc =>
    tokens_append (separated_of_boundary (by simpa using hc)) s
  by_cases hlast : ∃ c ∈ a.getLast?, isBoundary c = true
  · obtain ⟨c, hc, hboundary⟩ := hlast
    obtain ⟨s, rfl⟩ := List.getLast?_eq_some_iff.1 hc
    rw [List.append_assoc, List.singleton_append, hbefore s b hboundary, hcons b hboundary,
      hbefore s [] hboundary, List.append_assoc]
  · cases hc : a.getLast? with
    | none =>
      obtain rfl := List.getLast?_eq_none_iff.1 hc
      rfl
    | some c =>
      -- The first text ends inside a run, so the second one starts with a boundary.
      refine tokens_append (separated_of_boundary fun d hd => ?_) a
      exact (h c hc d hd).resolve_left fun hboundary => hlast ⟨c, hc, hboundary⟩

/-! ## Tokens at their places -/

/-- What may stand as a token between two texts: a parenthesis, or a run that cannot be made longer at
either end. -/
def Delimited (before token after : List Char) : Prop :=
  (∃ c, isParen c = true ∧ token = [c]) ∨
    IsWord token ∧ (∀ c ∈ before.getLast?, isBoundary c = true) ∧ ∀ c ∈ after.head?, isBoundary c = true

/-- The token stands in the text at a place. -/
def TokenAt (text : List Char) (place : Nat) (token : List Char) : Prop :=
  ∃ before after, text = before ++ token ++ after ∧ before.length = place ∧ Delimited before token after

section Delimited

variable {a b before token after : List Char}

theorem Delimited.ne_nil (h : Delimited before token after) : token ≠ [] := by
  rcases h with ⟨c, -, rfl⟩ | ⟨hword, -⟩
  · simp
  · exact hword.1

theorem Delimited.drop_before (h : Delimited (a ++ before) token after) :
    Delimited before token after := by
  refine h.imp_right fun ⟨hword, hbefore, hafter⟩ => ⟨hword, fun c hc => ?_, hafter⟩
  apply hbefore c
  rw [List.getLast?_append, Option.mem_def.1 hc]
  rfl

theorem Delimited.drop_after (h : Delimited before token (after ++ b)) :
    Delimited before token after := by
  refine h.imp_right fun ⟨hword, hbefore, hafter⟩ => ⟨hword, hbefore, fun c hc => ?_⟩
  apply hafter c
  rw [List.head?_append, Option.mem_def.1 hc]
  rfl

/-- More text in front does not make a run longer that starts where the texts break. -/
theorem Delimited.add_before (h : Delimited before token after)
    (hbreak : Breaks a (before ++ token ++ after)) : Delimited (a ++ before) token after := by
  refine h.imp_right fun ⟨hword, hbefore, hafter⟩ => ⟨hword, fun c hc => ?_, hafter⟩
  rw [List.getLast?_append] at hc
  cases hlast : before.getLast? with
  | some d =>
    rw [hlast] at hc
    exact hbefore c (hlast.trans hc)
  | none =>
    -- The run starts right at the break, and its first character is no boundary.
    obtain rfl := List.getLast?_eq_none_iff.1 hlast
    obtain ⟨d, w, rfl⟩ := List.exists_cons_of_ne_nil hword.1
    have hd : isBoundary d = false := hword.not_boundary (by simp)
    exact (hbreak c hc d (by simp)).resolve_right (by simp [hd])

/-- More text behind does not make a run longer that ends where the texts break. -/
theorem Delimited.add_after (h : Delimited before token after)
    (hbreak : Breaks (before ++ token ++ after) b) : Delimited before token (after ++ b) := by
  refine h.imp_right fun ⟨hword, hbefore, hafter⟩ => ⟨hword, hbefore, fun c hc => ?_⟩
  rw [List.head?_append] at hc
  cases hhead : after.head? with
  | some d =>
    rw [hhead] at hc
    exact hafter c (hhead.trans hc)
  | none =>
    obtain rfl := List.head?_eq_none_iff.1 hhead
    obtain ⟨d, hd⟩ := List.getLast?_isSome.2 hword.1 |> Option.isSome_iff_exists.1
    have hmem : isBoundary d = false := hword.not_boundary (List.mem_of_getLast? hd)
    refine (hbreak d ?_ c hc).resolve_left (by simp [hmem])
    rw [List.append_nil, List.getLast?_append, hd]
    rfl

end Delimited

/-- Where two texts break, the tokens of the whole are those of the first and, further on, those of the
second. -/
theorem TokenAt.append_iff {a b token : List Char} {place : Nat} (hbreak : Breaks a b) :
    TokenAt (a ++ b) place token ↔
      TokenAt a place token ∨ ∃ k, place = a.length + k ∧ TokenAt b k token := by
  constructor
  · rintro ⟨before, after, htext, rfl, hdelimited⟩
    rw [List.append_assoc] at htext
    rcases List.append_eq_append_iff.1 htext with ⟨gap, rfl, rfl⟩ | ⟨start, rfl, hrest⟩
    · -- The token starts in the second text.
      refine Or.inr ⟨gap.length, by simp, gap, after, by simp, rfl, hdelimited.drop_before⟩
    rcases List.append_eq_append_iff.1 hrest with ⟨gap, rfl, rfl⟩ | ⟨stop, rfl, rfl⟩
    · -- It ends in the first one.
      exact Or.inl ⟨before, gap, by simp, rfl, hdelimited.drop_after⟩
    by_cases hstart : start = []
    · subst hstart
      have hsecond : Delimited (before ++ []) stop after := by simpa using hdelimited
      exact Or.inr ⟨0, by simp, [], after, by simp, rfl, hsecond.drop_before⟩
    by_cases hstop : stop = []
    · subst hstop
      have hfirst : Delimited before start ([] ++ after) := by simpa using hdelimited
      exact Or.inl ⟨before, [], by simp, rfl, by simpa using hfirst.drop_after⟩
    -- It has a part in each: that is no parenthesis, and a run would go over the break.
    exfalso
    obtain ⟨s, c, rfl⟩ : ∃ s c, start = s ++ [c] :=
      ⟨_, _, (List.dropLast_concat_getLast hstart).symm⟩
    obtain ⟨d, r, rfl⟩ := List.exists_cons_of_ne_nil hstop
    rcases hdelimited with ⟨e, -, htoken⟩ | ⟨hword, -⟩
    · have hlength := congrArg List.length htoken
      simp at hlength
      omega
    · have hc : isBoundary c = false := hword.not_boundary (by simp)
      have hd : isBoundary d = false := hword.not_boundary (by simp)
      simpa [hc, hd] using hbreak c (by simp [List.getLast?_append]) d (by simp)
  · rintro (⟨before, after, rfl, rfl, hdelimited⟩ | ⟨k, rfl, before, after, rfl, rfl, hdelimited⟩)
    · exact ⟨before, after ++ b, by simp, rfl, hdelimited.add_after hbreak⟩
    · exact ⟨a ++ before, after, by simp, by simp, hdelimited.add_before hbreak⟩

/-- Tokens with their places: all that stand in the text, each behind the end of the one before it. -/
structure Placed (text : List Char) (places : List (Nat × List Char)) : Prop where
  ordered : places.Pairwise fun p q => p.1 + p.2.length ≤ q.1
  all : ∀ place token, (place, token) ∈ places ↔ TokenAt text place token

namespace Placed

theorem nil : Placed [] [] where
  ordered := .nil
  all place token := by
    constructor
    · intro h
      cases h
    · rintro ⟨before, after, htext, -, hdelimited⟩
      have htoken : token = [] := by simp_all
      exact absurd htoken hdelimited.ne_nil

theorem blank {c : Char} (hc : Text.isBlank c = true) : Placed [c] [] where
  ordered := .nil
  all place token := by
    constructor
    · intro h
      cases h
    · rintro ⟨before, after, htext, -, hdelimited⟩
      -- A token has a character, and the only one here is blank.
      obtain ⟨d, r, rfl⟩ := List.exists_cons_of_ne_nil hdelimited.ne_nil
      have hd : d = c := by
        have hmem : d ∈ [c] := by simp [htext]
        exact List.mem_singleton.1 hmem
      subst hd
      rcases hdelimited with ⟨e, hparen, heq⟩ | ⟨hword, -⟩
      · obtain rfl : d = e := by simp_all
        simp [isBlank_of_isParen hparen] at hc
      · simp [(hword.2 d (by simp)).1] at hc

/-- A parenthesis alone, or a run alone, is one token. -/
theorem single {token : List Char} (h : (∃ c, isParen c = true ∧ token = [c]) ∨ IsWord token) :
    Placed token [(0, token)] where
  ordered := List.pairwise_singleton _ _
  all place other := by
    constructor
    · intro hmem
      cases List.mem_singleton.1 hmem
      exact ⟨[], [], by simp, rfl, h.imp_right fun hword => ⟨hword, by simp, by simp⟩⟩
    · rintro ⟨before, after, htext, rfl, hdelimited⟩
      suffices hnothing : before = [] ∧ after = [] by
        obtain ⟨rfl, rfl⟩ := hnothing
        simp [htext]
      rcases h with ⟨c, -, rfl⟩ | hword
      · -- The other token takes the one character there is.
        have hlength := congrArg List.length htext
        have hpos : 0 < other.length := List.length_pos_iff.2 hdelimited.ne_nil
        simp only [List.length_append, List.length_singleton] at hlength
        exact ⟨List.length_eq_zero_iff.1 (by omega), List.length_eq_zero_iff.1 (by omega)⟩
      · rcases hdelimited with ⟨c, hparen, rfl⟩ | ⟨-, hbefore, hafter⟩
        · have hplain := (hword.2 c (by simp [htext])).2
          simp [hparen] at hplain
        · -- A boundary beside the other token would be a character of this one.
          constructor
          · by_contra hne
            have hlast := hbefore _ (List.getLast?_eq_some_getLast hne)
            rw [hword.not_boundary (by rw [htext]; simp)] at hlast
            cases hlast
          · by_contra hne
            have hhead := hafter _ (List.head?_eq_some_head hne)
            rw [hword.not_boundary (by rw [htext]; simp)] at hhead
            cases hhead

theorem append {a b : List Char} {ps qs : List (Nat × List Char)} (hbreak : Breaks a b)
    (ha : Placed a ps) (hb : Placed b qs) :
    Placed (a ++ b) (ps ++ qs.map fun q => (a.length + q.1, q.2)) where
  ordered := by
    refine List.pairwise_append.2 ⟨ha.ordered, List.pairwise_map.2 (hb.ordered.imp ?_), ?_⟩
    · intro p q hpq
      dsimp only
      omega
    · intro p hp q hq
      obtain ⟨r, -, rfl⟩ := List.mem_map.1 hq
      obtain ⟨before, after, htext, hplace, -⟩ := (ha.all p.1 p.2).1 hp
      have hlength := congrArg List.length htext
      simp only [List.length_append] at hlength
      dsimp only
      omega
  all place token := by
    rw [TokenAt.append_iff hbreak, List.mem_append, ha.all]
    apply or_congr_right
    constructor
    · intro hmem
      obtain ⟨q, hq, heq⟩ := List.mem_map.1 hmem
      obtain ⟨rfl, rfl⟩ := Prod.mk.inj heq
      exact ⟨q.1, rfl, (hb.all q.1 q.2).1 hq⟩
    · rintro ⟨k, rfl, htoken⟩
      exact List.mem_map.2 ⟨(k, token), (hb.all k token).2 htoken, rfl⟩

end Placed

/-- What the scanner takes are all tokens of the text, in the order of their places. -/
theorem Scans.placed {text : List Char} {ts : List (List Char)} (h : Scans text ts) :
    ∃ places, Placed text places ∧ ts = places.map (·.2) := by
  -- One step of the scanner takes a part of the text that breaks off from the rest.
  have hstep : ∀ {a r : List Char} {ps qs : List (Nat × List Char)}, Breaks a r → Placed a ps →
      Placed r qs → ∃ places, Placed (a ++ r) places ∧
        ps.map (·.2) ++ qs.map (·.2) = places.map (·.2) := by
    intro a r ps qs hbreak ha hr
    exact ⟨_, ha.append hbreak hr, by simp⟩
  induction h with
  | nil => exact ⟨[], .nil, rfl⟩
  | @blank c r ts hc _ ih =>
    obtain ⟨places, hplaced, rfl⟩ := ih
    exact hstep (a := [c]) (fun d hd _ _ => by simp_all [isBoundary]) (.blank hc) hplaced
  | @paren c r ts hc _ ih =>
    obtain ⟨places, hplaced, rfl⟩ := ih
    exact hstep (a := [c]) (fun d hd _ _ => by simp_all [isBoundary]) (.single (.inl ⟨c, hc, rfl⟩)) hplaced
  | run hword hrest _ ih =>
    obtain ⟨places, hplaced, rfl⟩ := ih
    exact hstep (fun _ _ d hd => Or.inr (hrest d hd)) (.single (.inr hword)) hplaced

/-- The scanner drops blanks and nothing else. -/
theorem Scans.flatten_eq {text : List Char} {ts : List (List Char)} (h : Scans text ts) :
    ts.flatten = text.filter fun c => !Text.isBlank c := by
  induction h with
  | nil => rfl
  | blank hc _ ih => simp [hc, ih]
  | paren hc _ ih => simp [isBlank_of_isParen hc, ih]
  | @run w r ts hword _ _ ih =>
    have hw : w.filter (fun c => !Text.isBlank c) = w :=
      List.filter_eq_self.2 fun c hc => by simp [(hword.2 c hc).1]
    rw [List.flatten_cons, List.filter_append, hw, ih]

/-- The tokens of a source are the parentheses and the maximal runs of other characters that are not blank,
all of them, in the order of their places. No token is empty, and none but a parenthesis has a parenthesis
or a blank in it. Together they are the source without its blanks. The tokens of two sources, one behind the
other, are those of the one and then those of the other wherever the first ends with a boundary or the
second starts with one. -/
theorem tokenize_maximal_runs (source : String) :
    (∃ places, Placed source.toList places ∧
      tokenize source = places.map fun p => String.ofList p.2) ∧
    (∀ token ∈ tokenize source, token ≠ "" ∧ (token ≠ "(" → token ≠ ")" →
      ∀ c ∈ token.toList, Text.isBlank c = false ∧ isParen c = false)) ∧
    String.join (tokenize source) = String.ofList (source.toList.filter fun c => !Text.isBlank c) ∧
    ∀ next : String, Breaks source.toList next.toList →
      tokenize (source ++ next) = tokenize source ++ tokenize next := by
  have hscan := scans_tokens source.toList
  obtain ⟨places, hplaced, htokens⟩ := hscan.placed
  have hsource : tokenize source = places.map fun p => String.ofList p.2 := by
    rw [tokenize, htokens, List.map_map]
    rfl
  refine ⟨⟨places, hplaced, hsource⟩, ?_, ?_, ?_⟩
  · intro token hmem
    rcases token_cases hmem with rfl | rfl | hword
    · exact ⟨by decide, fun hopen _ => absurd rfl hopen⟩
    · exact ⟨by decide, fun _ hclose => absurd rfl hclose⟩
    · exact ⟨by simpa using hword.1, fun _ _ => hword.2⟩
  · apply String.ext
    rw [String.toList_join, String.toList_ofList, ← hscan.flatten_eq, tokenize, List.flatMap_map]
    simp [List.flatMap]
  · intro next hbreak
    rw [tokenize, String.toList_append, tokens_append_of_breaks hbreak, List.map_append]
    rfl

/-- A run ends at the parenthesis that the second source starts with, and the blanks are of three kinds. -/
theorem tokenize_maximal_runs_torn :
    "a1" ∈ tokenize "a1\t(b" ∧ (∀ c ∈ "a1".toList, Text.isBlank c = false ∧ isParen c = false) ∧
      Breaks "a1\t(b".toList ") c　d".toList ∧
      tokenize ("a1\t(b" ++ ") c　d") = tokenize "a1\t(b" ++ tokenize ") c　d" ∧
      tokenize "a1\t(b" = ["a1", "(", "b"] ∧ tokenize ") c　d" = [")", "c", "d"] := by
  obtain ⟨-, hruns, -, hjoin⟩ := tokenize_maximal_runs "a1\t(b"
  have hmem : "a1" ∈ tokenize "a1\t(b" := by decide
  have hbreak : Breaks "a1\t(b".toList ") c　d".toList := by
    intro c _ d hd
    obtain rfl : ')' = d := by simpa using hd
    exact Or.inr rfl
  exact ⟨hmem, (hruns "a1" hmem).2 (by decide) (by decide), hbreak, hjoin _ hbreak, by decide, by decide⟩

end Lisplet
