import Lisplet.Proofs.Names

/-!
# Printed results

Whatever a session of source texts prints is tidy: words and single spaces, with parentheses that
match. That is no matter of printing alone, since a symbol is printed as its name; it takes that all
symbols have names that could have been read. If the value is made of integers, symbols and lists
only, its text also reads back as that value and nothing else.

Main definitions: `Balanced`, `Tidy`, `Value.IsDatum`. Main statements: `Value.From.print_tidy`,
`Value.IsDatum.print_eq_source`, `Session.run_prints_tidy`.
-/

namespace Lisplet

/-! ## Tidy texts -/

/-- As many parentheses are closed as are opened, and at no point more were closed than opened. -/
structure Balanced (cs : List Char) : Prop where
  count_eq : cs.count ')' = cs.count '('
  count_le : ∀ n, (cs.take n).count ')' ≤ (cs.take n).count '('

namespace Balanced

variable {cs ds : List Char}

theorem of_no_parens (h : ∀ c ∈ cs, isParen c = false) : Balanced cs := by
  have hnone : ∀ n c, isParen c = true → (cs.take n).count c = 0 := by
    intro n c hc
    rw [List.count_eq_zero]
    intro hmem
    have hplain := h c (List.mem_of_mem_take hmem)
    simp [hc] at hplain
  have hcount : ∀ c, isParen c = true → cs.count c = 0 := by
    intro c hc
    simpa using hnone cs.length c hc
  constructor
  · rw [hcount ')' (by decide), hcount '(' (by decide)]
  · intro n
    rw [hnone n ')' (by decide)]
    exact Nat.zero_le _

theorem append (hc : Balanced cs) (hd : Balanced ds) : Balanced (cs ++ ds) := by
  constructor
  · rw [List.count_append, List.count_append, hc.count_eq, hd.count_eq]
  · -- A front part of both is one of the first, and behind it one of the second that may be empty.
    intro n
    rw [List.take_append, List.count_append, List.count_append]
    exact Nat.add_le_add (hc.count_le n) (hd.count_le _)

theorem parens (h : Balanced cs) : Balanced ('(' :: cs ++ [')']) := by
  constructor
  · simp [h.count_eq]
  · intro n
    cases n with
    | zero => simp
    | succ n =>
      have hfront := h.count_le n
      have hlast : (([')'] : List Char).take (n - cs.length)).count ')' ≤ 1 :=
        (List.take_sublist _ _).count_le _
      simp only [List.cons_append, List.take_succ_cons, List.take_append, List.count_append,
        List.count_cons_self, List.count_cons_of_ne (show '(' ≠ ')' by decide)]
      omega

end Balanced

/-- The only blanks are spaces, and the parentheses match. -/
structure Tidy (cs : List Char) : Prop where
  space_of_isBlank : ∀ c ∈ cs, Text.isBlank c = true → c = ' '
  balanced : Balanced cs

namespace Tidy

variable {cs ds : List Char}

theorem of_no_parens (hspace : ∀ c ∈ cs, Text.isBlank c = true → c = ' ')
    (hparen : ∀ c ∈ cs, isParen c = false) : Tidy cs :=
  ⟨hspace, .of_no_parens hparen⟩

theorem append (hc : Tidy cs) (hd : Tidy ds) : Tidy (cs ++ ds) := by
  refine ⟨?_, hc.balanced.append hd.balanced⟩
  intro c hmem
  rcases List.mem_append.1 hmem with hmem | hmem
  · exact hc.space_of_isBlank c hmem
  · exact hd.space_of_isBlank c hmem

theorem parens (h : Tidy cs) : Tidy ('(' :: cs ++ [')']) := by
  refine ⟨?_, h.balanced.parens⟩
  intro c hmem hblank
  have hcases : c = '(' ∨ c ∈ cs ∨ c = ')' := by simpa using hmem
  rcases hcases with rfl | hmem | rfl
  · exact absurd hblank (by decide)
  · exact h.space_of_isBlank c hmem hblank
  · exact absurd hblank (by decide)

/-- A fixed text is tidy if it passes a test of its characters. -/
theorem of_all (h : (cs.all fun c => c == ' ' || !Text.isBlank c && !isParen c) = true) : Tidy cs := by
  rw [List.all_eq_true] at h
  apply of_no_parens
  · intro c hc hblank
    simpa [hblank] using h c hc
  · intro c hc
    have hcases : c = ' ' ∨ Text.isBlank c = false ∧ isParen c = false := by simpa using h c hc
    rcases hcases with rfl | ⟨-, hparen⟩
    · rfl
    · exact hparen

theorem space : Tidy [' '] :=
  of_all (by decide)

theorem of_isWord (h : IsWord cs) : Tidy cs := by
  apply of_no_parens
  · intro c hc hblank
    simp [(h.2 c hc).1] at hblank
  · intro c hc
    exact (h.2 c hc).2

theorem spaced {texts : List (List Char)} (h : ∀ t ∈ texts, Tidy t) :
    Tidy (Lisplet.spaced texts) := by
  induction texts with
  | nil => exact of_no_parens (by simp [Lisplet.spaced]) (by simp [Lisplet.spaced])
  | cons t texts ih =>
    obtain ⟨ht, hrest⟩ := List.forall_mem_cons.1 h
    cases texts with
    | nil => simpa [Lisplet.spaced] using ht
    | cons u texts =>
      have hsplit : Lisplet.spaced (t :: u :: texts) = t ++ ([' '] ++ Lisplet.spaced (u :: texts)) := by
        simp [Lisplet.spaced, List.intercalate_cons_cons]
      rw [hsplit]
      exact ht.append (space.append (ih hrest))

end Tidy

/-! ## Printing -/

/-- The texts of a list are those of its items, in order. -/
theorem printAll_eq_value {limit : Nat} {vs : List Value} {texts : List (List Char)}
    (h : printAll limit vs = .value texts) :
    List.Forall₂ (fun v t => v.print limit = .value t) vs texts := by
  induction vs generalizing texts with
  | nil =>
    cases h
    exact .nil
  | cons v vs ih =>
    rw [printAll] at h
    obtain ⟨t, ht, hrest⟩ := Outcome.bind_eq_value h
    obtain ⟨ts, hts, heq⟩ := Outcome.bind_eq_value hrest
    cases heq
    exact .cons ht (ih hts)

theorem exists_of_mem_printAll {limit : Nat} {vs : List Value} {texts : List (List Char)}
    (h : printAll limit vs = .value texts) {t : List Char} (ht : t ∈ texts) :
    ∃ v ∈ vs, v.print limit = .value t := by
  have hall := printAll_eq_value h
  clear h
  induction hall with
  | nil => cases ht
  | cons hv _ ih =>
    rcases List.mem_cons.1 ht with rfl | ht
    · exact ⟨_, List.mem_cons_self .., hv⟩
    · obtain ⟨w, hw, hwt⟩ := ih ht
      exact ⟨w, List.mem_cons_of_mem _ hw, hwt⟩

theorem noOutput_tidy : Tidy noOutput.toList :=
  .of_all (by decide)

theorem Primitive.print_tidy (p : Primitive) : Tidy ("#<primitive " ++ p.name ++ ">").toList := by
  rw [String.toList_append, String.toList_append]
  have hfront : Tidy "#<primitive ".toList := .of_all (by decide)
  have hname : Tidy p.name.toList := .of_isWord p.isName.isWord
  have hback : Tidy ">".toList := .of_all (by decide)
  exact (hfront.append hname).append hback

theorem closure_tidy {names : List String} (h : ∀ x ∈ names, IsName x) :
    Tidy ("#<procedure (" ++ " ".intercalate names ++ ")>").toList := by
  have hnames : Tidy (spaced (names.map String.toList)) := by
    apply Tidy.spaced
    intro t ht
    obtain ⟨x, hx, rfl⟩ := List.mem_map.1 ht
    exact .of_isWord (h x hx).isWord
  have hfront : Tidy "#<procedure ".toList := .of_all (by decide)
  have hback : Tidy ">".toList := .of_all (by decide)
  have htext : ("#<procedure (" ++ " ".intercalate names ++ ")>").toList =
      "#<procedure ".toList ++ ('(' :: spaced (names.map String.toList) ++ [')']) ++ ">".toList := by
    simp [String.toList_intercalate, spaced]
  rw [htext]
  exact (hfront.append hnames.parens).append hback

/-- What a session prints is tidy, also if procedures and absent values are in it. -/
theorem Value.From.print_tidy {base : FrameId} {v : Value} (h : v.From (.named base)) {limit : Nat}
    {cs : List Char} (hprint : v.print limit = .value cs) : Tidy cs := by
  induction h generalizing limit cs with
  | noValue =>
    cases hprint
    exact noOutput_tidy
  | @bool b =>
    cases hprint
    cases b <;> exact .of_all (by decide)
  | @int n =>
    rw [Value.print] at hprint
    rw [(writeInt_eq_value hprint).2]
    exact .of_isWord (isWord_ofInt n)
  | symbol hname =>
    cases hprint
    exact .of_isWord hname.isWord
  | list _ ih =>
    cases limit with
    | zero => cases hprint
    | succ limit =>
      rw [Value.print] at hprint
      obtain ⟨texts, htexts, heq⟩ := Outcome.bind_eq_value hprint
      cases heq
      apply Tidy.parens
      apply Tidy.spaced
      intro t ht
      obtain ⟨v, hv, hvt⟩ := exists_of_mem_printAll htexts ht
      exact ih v hv hvt
  | @primitive p home =>
    cases hprint
    exact p.print_tidy
  | closure hclosure =>
    cases limit with
    | zero => cases hprint
    | succ limit =>
      obtain ⟨⟨names, rfl, hnames⟩, -⟩ := hclosure
      rw [Value.print, titleAll_symbols] at hprint
      cases hprint
      exact closure_tidy hnames
  | text hfalse => exact hfalse.elim

/-! ## Reading back -/

/-- Values that are made of integers, symbols and lists only. -/
inductive Value.IsDatum : Value → Prop where
  | int {n : Int} : IsDatum (.int n)
  | symbol {x : String} : IsDatum (.symbol x)
  | list {id : Option ObjectId} {items : List Value} :
      (∀ v ∈ items, IsDatum v) → IsDatum (.list id items)

/-- Lists are printed as their source if their items are. -/
theorem printAll_eq_sourceAll {limit : Nat} {vs : List Value} {texts : List (List Char)}
    (h : printAll limit vs = .value texts)
    (hitems : ∀ v ∈ vs, ∀ t, v.print limit = .value t → IsTree IsName v ∧ t = v.source) :
    (∀ v ∈ vs, IsTree IsName v) ∧ texts = sourceAll vs := by
  have hall := printAll_eq_value h
  clear h
  induction hall with
  | nil => exact ⟨by simp, rfl⟩
  | cons hv _ ih =>
    obtain ⟨hfirst, hrest⟩ := List.forall_mem_cons.1 hitems
    obtain ⟨htree, rfl⟩ := hfirst _ hv
    obtain ⟨htrees, rfl⟩ := ih hrest
    exact ⟨List.forall_mem_cons.2 ⟨htree, htrees⟩, rfl⟩

/-- A datum that is printed is a tree, since its integers are short enough to be written and its symbols
have names, and its text is the text of the tree. -/
theorem Value.IsDatum.print_eq_source {base : FrameId} {v : Value} (hdatum : v.IsDatum)
    (hfrom : v.From (.named base)) {limit : Nat} {cs : List Char} (h : v.print limit = .value cs) :
    IsTree IsName v ∧ cs = v.source := by
  induction hdatum generalizing limit cs with
  | int =>
    rw [Value.print] at h
    obtain ⟨hshort, rfl⟩ := writeInt_eq_value h
    exact ⟨.int hshort, rfl⟩
  | symbol =>
    cases h
    cases hfrom with
    | symbol hname => exact ⟨.symbol hname, rfl⟩
  | list _ ih =>
    cases limit with
    | zero => cases h
    | succ limit =>
      rw [Value.print] at h
      obtain ⟨texts, htexts, heq⟩ := Outcome.bind_eq_value h
      cases heq
      have hitems := (Value.from_list_iff _ _).1 hfrom
      obtain ⟨htrees, rfl⟩ := printAll_eq_sourceAll htexts fun v hv t ht => ih v hv (hitems v hv) ht
      exact ⟨.list htrees, rfl⟩

/-! ## Sessions -/

theorem Value.print_of_printed {limit : Nat} {v : Value} {t : String}
    (h : v.printed limit = .ok t) : v.print limit = .value t.toList := by
  unfold Value.printed at h
  cases hprint : v.print limit with
  | value cs =>
    rw [hprint] at h
    cases h
    rw [String.toList_ofList]
  | fault f =>
    rw [hprint] at h
    cases h
  | exhausted =>
    rw [hprint] at h
    cases h

/-- **What a session prints is tidy.** Let a session be started on any machine, with any prelude, and let
any sources be evaluated on it. If one more source is run and answered with a text, that is the text of
the value of the source. Its only blanks are spaces and its parentheses match, whatever the value is. If
the value is made of integers, symbols and lists only, then under every limit above its nesting the text
is read as the value, and as nothing else. -/
theorem Session.run_prints_tidy {limit : Nat} {host : Host} {prelude : Prelude} {s : Session}
    {m₀ m₁ : Machine} (hstart : Session.start limit host prelude m₀ = (.value s, m₁))
    (calls : List Session.Call) {k : Nat} {source t : String} {m' : Machine}
    (hrun : s.run k source (s.after calls m₁) = (.value t, m')) :
    ∃ v, s.eval k source (s.after calls m₁) = (.value v, m') ∧ v.printed k = .ok t ∧
      (∀ c ∈ t.toList, Text.isBlank c = true → c = ' ') ∧
      Balanced t.toList ∧
      (v.IsDatum → ∀ n, v.nesting < n →
        (∀ store, (parseAll n t).Ends store (.ok ⟨[v.written], none⟩) store) ∧
        v.same n v.written = .value true) := by
  obtain ⟨v, m₂, heval, hprinted⟩ := Run.bind_eq_value_iff.1 hrun
  obtain ⟨hok, rfl⟩ : v.printed k = .ok t ∧ m₂ = m' := by
    cases hv : v.printed k with
    | ok u =>
      rw [hv] at hprinted
      cases hprinted
      exact ⟨rfl, rfl⟩
    | error f =>
      rw [hv] at hprinted
      cases hprinted
  have hfrom := Session.eval_named hstart heval
  have hprint := Value.print_of_printed hok
  have htidy := hfrom.print_tidy hprint
  refine ⟨v, heval, hok, htidy.space_of_isBlank, htidy.balanced, ?_⟩
  intro hdatum n hn
  obtain ⟨htree, hsource⟩ := hdatum.print_eq_source hfrom hprint
  have htext : t = String.ofList v.source := by rw [← hsource, String.ofList_toList]
  rw [htext]
  exact ⟨parseAll_source htree hn, htree.same_written hn⟩

/-- After two sources that failed, a session answers with a list that has a symbol, a negative integer
and an empty list in it, and the answer is read as that list. -/
theorem Session.run_prints_tidy_list :
    let s : Session := ⟨0⟩
    let m₁ := (Machine.new .warning).withStandard
    let m := s.after [.eval 20 "(list", .run 20 "y"] m₁
    (s.run 20 "(list (quote a-b) -7 (list))" m).1 = .value "(a-b -7 ())" ∧
      Balanced "(a-b -7 ())".toList ∧
      ∃ v, (s.eval 20 "(list (quote a-b) -7 (list))" m).1 = .value v ∧
        ∀ store, (parseAll 20 "(a-b -7 ())").Ends store (.ok ⟨[v.written], none⟩) store := by
  intro s m₁ m
  let w : Value := .list (some 1) [.symbol "a-b", .int (-7), .list (some 0) []]
  have hname : IsName "a-b" := by decide
  have htree : IsTree IsName w := by
    refine .list fun v hv => ?_
    simp only [List.mem_cons, List.not_mem_nil, or_false] at hv
    rcases hv with rfl | rfl | rfl
    · exact .symbol hname
    · exact .int (by decide)
    · exact .list (by simp)
  have hdatum : w.IsDatum := by
    refine .list fun v hv => ?_
    simp only [List.mem_cons, List.not_mem_nil, or_false] at hv
    rcases hv with rfl | rfl | rfl
    · exact .symbol
    · exact .int
    · exact .list (by simp)
  have hstart : Session.start 20 ⟨[], []⟩ .absent (Machine.new .warning) = (.value s, m₁) := rfl
  have hvalue : (s.eval 20 "(list (quote a-b) -7 (list))" m).1 = .value w := by with_unfolding_all rfl
  have hprinted : w.printed 20 = .ok "(a-b -7 ())" := by
    rw [htree.printed_eq (by decide)]
    rfl
  have heval : s.eval 20 "(list (quote a-b) -7 (list))" m =
      (.value w, (s.eval 20 "(list (quote a-b) -7 (list))" m).2) :=
    Prod.ext hvalue rfl
  have hrun : s.run 20 "(list (quote a-b) -7 (list))" m =
      (.value "(a-b -7 ())", (s.eval 20 "(list (quote a-b) -7 (list))" m).2) := by
    rw [Session.run, Run.bind_of_value _ heval, hprinted]
    rfl
  obtain ⟨v, hv, -, -, hbalanced, hread⟩ := Session.run_prints_tidy hstart _ hrun
  obtain rfl : w = v := by
    rw [hv] at hvalue
    cases hvalue
    rfl
  exact ⟨congrArg Prod.fst hrun, hbalanced, w, hvalue, (hread hdatum 20 (by decide)).1⟩

end Lisplet
