import Lisplet.Proofs.Numerals

/-!
# What is read

Whatever text or tokens a form is read from, it is a tree that nests below the depth limit of the
reading. So a form that was read can always be described under the same limit.

Main statements: `TokenStream.parseFrom_isForm`, `describe_of_mem_readForms`.
-/

namespace Lisplet

/-- Trees in which a symbol may have any name. -/
abbrev IsForm : Value → Prop :=
  IsTree fun _ => True

/-! ## Atoms -/

/-- An atom is a symbol, or an integer of at most 4300 digits. -/
theorem isForm_of_atom {t : String} {v : Value} (h : atom t = .ok v) :
    IsForm v ∧ v.nesting = 0 := by
  rcases atom_eq_ok h with ⟨-, rfl⟩ | ⟨sign, digits, rest, hrun, hshort, rfl⟩
  · exact ⟨.symbol trivial, rfl⟩
  · refine ⟨.int ?_, rfl⟩
    rw [natAbs_signed]
    exact (Text.Numeral.length_ofNat_ofDigits_le hrun.isDigit hrun.ne_nil).trans hshort

/-! ## Forms -/

namespace TokenStream

/-- The lists under way hold forms, and none of these nests beyond the limit where it stands. -/
def Fits (limit : Nat) : List (List Value) → Prop
  | [] => True
  | items :: rest =>
    rest.length < limit ∧ (∀ v ∈ items, IsForm v ∧ rest.length + 1 + v.nesting < limit) ∧
      Fits limit rest

/-- A list that is closed is a form that fits where the list stands. -/
theorem Fits.listOf {limit : Nat} {items : List Value} {rest : List (List Value)}
    (h : Fits limit (items :: rest)) :
    IsForm (listOf items) ∧ rest.length + (listOf items).nesting < limit := by
  obtain ⟨hdepth, hitems, -⟩ := h
  -- The items stand one level deeper than the list, which is what they add to its nesting.
  refine ⟨.list fun v hv => (hitems v (List.mem_reverse.1 hv)).1, ?_⟩
  have hnesting : (TokenStream.listOf items).nesting ≤ limit - rest.length - 1 := by
    refine nestingAll_le_iff.2 fun v hv => ?_
    have := (hitems v (List.mem_reverse.1 hv)).2
    omega
  omega

/-- Where the lists under way fit, so does whatever form is read in the end. -/
theorem parseFrom_isForm {limit : Nat} {pending : List (List Value)} {s s' : TokenStream}
    {v : Value} (hfits : Fits limit pending) (h : s.parseFrom limit pending = (.value v, s')) :
    IsForm v ∧ v.nesting < limit := by
  generalize hts : s.remaining = ts at *
  induction ts generalizing pending s with
  | nil =>
    rw [parseFrom_nil hts] at h
    cases h
  | cons t r ih =>
    obtain ⟨-, hnext⟩ := advance_of_remaining_cons hts
    -- A form that is complete here is the answer, or one more item of a list that still fits.
    have haccept : ∀ rest w, Fits limit rest → IsForm w → rest.length + w.nesting < limit →
        accept limit rest w s.advance.2 = (.value v, s') → IsForm v ∧ v.nesting < limit := by
      intro rest w hrest hw hnest hrun
      cases rest with
      | nil =>
        cases hrun
        exact ⟨hw, by simpa using hnest⟩
      | cons items rest =>
        have hmore : Fits limit ((w :: items) :: rest) := by
          refine ⟨hrest.1, fun u hu => ?_, hrest.2.2⟩
          rcases List.mem_cons.1 hu with rfl | hu
          · exact ⟨hw, hnest⟩
          · exact hrest.2.1 u hu
        exact ih hmore hrun hnext
    rw [parseFrom_cons hts] at h
    split at h
    · cases pending with
      | nil => cases h
      | cons items rest =>
        exact haccept rest _ hfits.2.2 hfits.listOf.1 hfits.listOf.2 h
    · split at h
      · cases h
      · rename_i hlimit
        split at h
        · have hopen : Fits limit ([] :: pending) := ⟨by omega, by simp, hfits⟩
          exact ih hopen h hnext
        · split at h
          · cases h
          · rename_i w hatom
            obtain ⟨hw, hzero⟩ := isForm_of_atom hatom
            exact haccept pending w hfits hw (by omega) h

theorem read_isForm {limit : Nat} {s s' : TokenStream} {v : Value}
    (h : s.read limit = (.ok v, s')) : IsForm v ∧ v.nesting < limit := by
  rcases hparse : s.parseFrom limit [] with ⟨o, s₁⟩
  simp only [read, parse, hparse, Prod.mk.injEq] at h
  cases o with
  | value w =>
    cases h.1
    have hfits : Fits limit [] := trivial
    exact parseFrom_isForm hfits hparse
  | fault f => cases h.1
  | exhausted => cases h.1

theorem readAll_isForm {limit : Nat} {s : TokenStream} :
    ∀ v ∈ (s.readAll limit).forms, IsForm v ∧ v.nesting < limit := by
  fun_induction readAll limit s with
  | case1 s hnone => simp
  | case2 s t hsome f s' hread => simp
  | case3 s t hsome v s' hread hlen later ih =>
    intro w hw
    rcases List.mem_cons.1 hw with rfl | hw
    · exact read_isForm hread
    · exact ih w hw

end TokenStream

/-- Every form of a source can be described under the limit it was read with. -/
theorem describe_of_mem_readForms {limit : Nat} {source : String} {form : Value}
    (h : form ∈ (readForms limit source).forms) : ∃ text, form.describe limit = .value text := by
  obtain ⟨hform, hnesting⟩ := TokenStream.readAll_isForm form h
  exact hform.describe_eq hnesting

theorem isForm_of_readForm {limit : Nat} {source : String} {form : Value}
    (h : readForm limit source = .ok form) : IsForm form ∧ form.nesting < limit :=
  TokenStream.read_isForm (Prod.ext h rfl)

/-- So can the first form of a source alone. -/
theorem describe_of_readForm {limit : Nat} {source : String} {form : Value}
    (h : readForm limit source = .ok form) : ∃ text, form.describe limit = .value text := by
  obtain ⟨hform, hnesting⟩ := isForm_of_readForm h
  exact hform.describe_eq hnesting

end Lisplet
