import Lisplet.Proofs.Incremental
import Lisplet.Proofs.Names

/-!
# Writing a source anew

A form can be written in many ways: with more blanks between its parts, with a plus sign or zeros in front
of an integer, with letters behind its digits. Printing writes it in one way. What is read from a source can
always be printed, the printed text holds the same forms and no mistake, and printing these gives the same
text again. So the text is a normal form of all sources with these forms.

Main definitions: `ReadsBack`, `printedAll`, `reprinted`. Main statements: `readForms_spacedSources`,
`parseAll_ends`, `reprinted_canonical`.
-/

namespace Lisplet

/-- Names that are read as their symbol and nothing else. -/
def ReadsBack (limit : Nat) (x : String) : Prop :=
  readForms limit x = ⟨[.symbol x], none⟩

/-- The printed texts of values, with a space between each two. -/
def printedAll (limit : Nat) (vs : List Value) : Except Fault String := do
  let texts ← vs.mapM fun v => v.printed limit
  pure (" ".intercalate texts)

/-- A source written anew: its forms, up to the first that is malformed, are read and printed. -/
def reprinted (limit : Nat) (source : String) : Except Fault String :=
  printedAll limit (readForms limit source).forms

/-! ## What the forms of a source are -/

theorem writtenAll_eq_self {vs : List Value} (h : ∀ v ∈ vs, v.written = v) : writtenAll vs = vs := by
  rw [writtenAll_eq_map]
  exact (List.map_congr_left h).trans (List.map_id vs)

theorem Value.IsLiteral.written_eq {v : Value} (h : v.IsLiteral) : v.written = v := by
  induction h with
  | int => rfl
  | symbol => rfl
  | list _ ih => rw [Value.written, writtenAll_eq_self ih]

theorem IsTree.imp {P Q : String → Prop} (hPQ : ∀ x, P x → Q x) {v : Value} (h : IsTree P v) :
    IsTree Q v := by
  induction h with
  | int short => exact .int short
  | symbol name => exact .symbol (hPQ _ name)
  | list _ ih => exact .list ih

theorem IsName.readsBack {limit : Nat} {x : String} (h : IsName x) (hpos : 0 < limit) :
    ReadsBack limit x := by
  have hread := readForms_source (IsTree.symbol h) hpos
  rwa [Value.source, String.ofList_toList] at hread

/-! ## Texts with a space between each two -/

section

variable {limit : Nat} {vs : List Value}

/-- The texts of trees, with a space between each two. -/
def spacedSources (vs : List Value) : String :=
  " ".intercalate (vs.map fun v => String.ofList v.source)

theorem spacedSources_cons_cons (v w : Value) (vs : List Value) :
    spacedSources (v :: w :: vs) = String.ofList v.source ++ " " ++ spacedSources (w :: vs) := by
  apply String.ext
  simp [spacedSources, String.toList_intercalate]

/-- Trees that nest below the limit are printed, each as its text. -/
theorem printedAll_eq {P : String → Prop} (h : ∀ v ∈ vs, IsTree P v ∧ v.nesting < limit) :
    printedAll limit vs = .ok (spacedSources vs) := by
  have htexts : vs.mapM (fun v => v.printed limit) =
      .ok (vs.map fun v => String.ofList v.source) := by
    induction vs with
    | nil => rfl
    | cons v vs ih =>
      obtain ⟨⟨htree, hnesting⟩, hvs⟩ := List.forall_mem_cons.1 h
      rw [List.mapM_cons, htree.printed_eq hnesting, ih hvs]
      rfl
  rw [printedAll, htexts]
  rfl

/-- The texts of trees, with a space between each two, hold these trees and no mistake. -/
theorem readForms_spacedSources (h : ∀ v ∈ vs, IsTree IsName v ∧ v.nesting < limit) :
    readForms limit (spacedSources vs) = ⟨writtenAll vs, none⟩ := by
  induction vs with
  | nil => exact readForms_eq_empty_iff.2 rfl
  | cons v vs ih =>
    obtain ⟨⟨htree, hnesting⟩, hvs⟩ := List.forall_mem_cons.1 h
    have hfirst := readForms_source htree hnesting
    cases vs with
    | nil => exact hfirst
    | cons w ws =>
      -- The text of the first tree is read without a failure, so what follows the space is read as if
      -- it stood alone.
      have hspace : ∀ c ∈ " ".toList, Text.isBlank c = true := by
        intro c hc
        obtain rfl : c = ' ' := by simpa using hc
        decide
      rw [spacedSources_cons_cons, readForms_append (by rw [hfirst]) (by decide) hspace, hfirst, ih hvs]
      rfl

end

/-! ## Reading on a machine -/

/-- Forms that can be described can be reported. -/
theorem reportForms_ends {limit : Nat} {forms : List Value}
    (h : ∀ form ∈ forms, ∃ text, form.describe limit = .value text) (store : Store) :
    (reportForms limit forms).Ends store (.ok ()) store := by
  induction forms with
  | nil => exact .pure () store
  | cons form forms ih =>
    obtain ⟨⟨text, htext⟩, hforms⟩ := List.forall_mem_cons.1 h
    exact .bind (.report (Event.message_readForm htext) store) (ih hforms)

/-- Reading all forms of a source never fails on a machine, and leaves the store alone. -/
theorem parseAll_ends (limit : Nat) (source : String) (store : Store) :
    (parseAll limit source).Ends store (.ok (readForms limit source)) store := by
  refine .bind (reportForms_ends ?_ store) (.pure _ store)
  intro form hform
  exact describe_of_mem_readForms hform

/-! ## The normal form -/

section

variable {limit : Nat} {source : String}

theorem tree_of_mem_readForms {form : Value} (h : form ∈ (readForms limit source).forms) :
    IsTree IsName form ∧ form.nesting < limit :=
  ⟨isTree_of_mem_readForms h, (TokenStream.readAll_isForm form h).2⟩

/-- The text of the forms of a source is read as these forms, under every limit below which they nest. -/
theorem readForms_of_spacedSources {n : Nat}
    (h : ∀ form ∈ (readForms limit source).forms, form.nesting < n) :
    readForms n (spacedSources (readForms limit source).forms) =
      ⟨(readForms limit source).forms, none⟩ := by
  -- No list that was read has an identity, so the forms are as they would be written.
  have hwritten : writtenAll (readForms limit source).forms = (readForms limit source).forms :=
    writtenAll_eq_self fun form hform => (isLiteral_of_mem_readForms hform).written_eq
  rw [readForms_spacedSources fun form hform => ⟨isTree_of_mem_readForms hform, h form hform⟩, hwritten]

theorem reprinted_eq (limit : Nat) (source : String) :
    reprinted limit source = .ok (spacedSources (readForms limit source).forms) :=
  printedAll_eq fun _ hform => tree_of_mem_readForms hform

end

/-- Whatever a source is like, the forms that are read from it, up to its end or its first mistake, are made
of lists, integers of at most 4300 digits and symbols whose names are read as these symbols, and they nest
below the limit. Under every limit below which they nest, they are printed as one and the same text, which is
read as exactly these forms, with no mistake, and is printed as itself again. Sources are printed alike just
if they have the same forms. -/
theorem reprinted_canonical (limit : Nat) (source : String) :
    (∀ store, (parseAll limit source).Ends store (.ok (readForms limit source)) store) ∧
    (∀ form ∈ (readForms limit source).forms, IsTree (ReadsBack limit) form ∧ form.nesting < limit) ∧
    (∃ text, ∀ n, (∀ form ∈ (readForms limit source).forms, form.nesting < n) →
      printedAll n (readForms limit source).forms = .ok text ∧
      (∀ store, (parseAll n text).Ends store (.ok ⟨(readForms limit source).forms, none⟩) store) ∧
      reprinted n text = .ok text) ∧
    ∀ other, reprinted limit other = reprinted limit source ↔
      (readForms limit other).forms = (readForms limit source).forms := by
  refine ⟨parseAll_ends limit source, ?_, ⟨spacedSources (readForms limit source).forms, ?_⟩, ?_⟩
  · intro form hform
    obtain ⟨htree, hnesting⟩ := tree_of_mem_readForms hform
    exact ⟨htree.imp fun x hx => hx.readsBack (by omega), hnesting⟩
  · intro n hn
    have hread := readForms_of_spacedSources hn
    refine ⟨printedAll_eq fun form hform => ⟨isTree_of_mem_readForms hform, hn form hform⟩, ?_, ?_⟩
    · intro store
      rw [← hread]
      exact parseAll_ends n _ store
    · rw [reprinted_eq, hread]
  · intro other
    rw [reprinted_eq, reprinted_eq]
    constructor
    · -- One text cannot be read as two sequences of forms.
      intro htext
      have hsame := congrArg (readForms limit) (Except.ok.inj htext)
      rw [readForms_of_spacedSources fun _ hform => (tree_of_mem_readForms hform).2,
        readForms_of_spacedSources fun _ hform => (tree_of_mem_readForms hform).2] at hsame
      exact (Reading.mk.inj hsame).1
    · intro hsame
      rw [hsame]

/-- A plus sign, a zero in front, letters behind digits, blanks of two kinds, and a parenthesis too many. -/
theorem reprinted_canonical_lenient :
    (readForms 3 "+07 (12abc\t x) ) y").forms = [.int 7, .literal [.int 12, .symbol "x"]] ∧
      printedAll 3 [.int 7, .literal [.int 12, .symbol "x"]] = .ok "7 (12 x)" ∧
      (∀ store, (parseAll 3 "7 (12 x)").Ends store
        (.ok ⟨[.int 7, .literal [.int 12, .symbol "x"]], none⟩) store) ∧
      reprinted 3 "7 (12 x)" = .ok "7 (12 x)" := by
  obtain ⟨-, hbelow, ⟨text, hcanonical⟩, -⟩ := reprinted_canonical 3 "+07 (12abc\t x) ) y"
  obtain ⟨hprinted, hparsed, hagain⟩ := hcanonical 3 fun form hform => (hbelow form hform).2
  have hforms : (readForms 3 "+07 (12abc\t x) ) y").forms =
      [.int 7, .literal [.int 12, .symbol "x"]] := by with_unfolding_all rfl
  have htext : text = spacedSources (readForms 3 "+07 (12abc\t x) ) y").forms :=
    Except.ok.inj (hprinted.symm.trans (printedAll_eq hbelow))
  rw [hforms] at hprinted hparsed htext
  obtain rfl : text = "7 (12 x)" := htext.trans (by decide)
  exact ⟨hforms, hprinted, hparsed, hagain⟩

end Lisplet
