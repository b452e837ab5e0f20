import Mathlib.Data.List.Induction
import Lisplet.Proofs.Grammar
import Lisplet.Proofs.Tree

/-!
# Integers as tokens

A token is read as an integer if it starts with one, and what stands behind the digits does not matter.
There are many ways to write an integer: zeros may stand in front of its digits, and a plus sign in front
of these if it is not negative. All of them are read as the integer, as long as the digits are not too
many, zeros included; and no other tokens are.

Reading goes through the digits from the left, and writing finds them from the right by division. The two
meet in `Text.Numeral.exists_zeros`: a run of digits is zeros and then the decimal text of its number.

Main definitions: `Text.Numeral.padded`, `IsNumeral`. Main statements: `Text.Numeral.exists_zeros`,
`atom_eq_int_iff`, `atom_exact`.
-/

namespace Lisplet

/-! ## Digits and numbers -/

namespace Text.Numeral

variable {c : Char} {ds : List Char}

theorem isDigit_of_mem_ofNat {n : Nat} (h : c ∈ ofNat n) : c.isDigit = true :=
  Nat.isDigit_of_mem_toDigits (by decide) (by decide) h

theorem ofNat_ne_nil (n : Nat) : ofNat n ≠ [] :=
  Nat.toDigits_ne_nil

theorem ofDigits_ofNat (n : Nat) : ofDigits (ofNat n) = n :=
  Nat.ofDigitChars_toDigits (by decide) (by decide)

theorem digitValue_lt (h : c.isDigit = true) : digitValue c < 10 := by
  obtain ⟨hzero, hnine⟩ := Char.isDigit_iff_toNat.1 h
  have hvalues : '0'.toNat = 48 ∧ '9'.toNat = 57 := ⟨rfl, rfl⟩
  unfold digitValue
  omega

/-- A digit is the character of its value. -/
theorem digitChar_digitValue (h : c.isDigit = true) : (digitValue c).digitChar = c := by
  obtain ⟨hzero, -⟩ := Char.isDigit_iff_toNat.1 h
  have hvalue : '0'.toNat = 48 := rfl
  apply Char.toNat_inj.1
  rw [Nat.toNat_digitChar_of_lt_ten (digitValue_lt h), digitValue]
  omega

/-- One digit more at the end is one step more of Horner's rule. -/
theorem ofDigits_concat (ds : List Char) (c : Char) :
    ofDigits (ds ++ [c]) = 10 * ofDigits ds + digitValue c :=
  List.foldl_append ..

/-- Zeros in front of the digits add nothing. -/
theorem ofDigits_zeros (z : Nat) (ds : List Char) :
    ofDigits (List.replicate z '0' ++ ds) = ofDigits ds := by
  induction z with
  | zero => rfl
  | succ z ih => exact ih

/-- A run of digits is zeros and then the decimal text of its number. -/
theorem exists_zeros (hdigits : ∀ c ∈ ds, c.isDigit = true) (hne : ds ≠ []) :
    ∃ z, ds = List.replicate z '0' ++ ofNat (ofDigits ds) := by
  -- The last digit of the run is the last one of the number, so the induction is on the run from its end.
  induction ds using List.reverseRecOn with
  | nil => exact absurd rfl hne
  | append_singleton ds c ih =>
    have hc : c.isDigit = true := hdigits c (by simp)
    have hds : ∀ d ∈ ds, d.isDigit = true := fun d hd => hdigits d (by simp [hd])
    have hlast : ofNat (digitValue c) = [c] := by
      rw [ofNat, Nat.toDigits_of_lt_base (digitValue_lt hc), digitChar_digitValue hc]
    rw [ofDigits_concat]
    by_cases hempty : ds = []
    · exact ⟨0, by simp [hempty, ofDigits, hlast]⟩
    · obtain ⟨z, hz⟩ := ih hds hempty
      rcases Nat.eq_zero_or_pos (ofDigits ds) with hzero | hpos
      · -- So far there were zeros only, and the last digit alone is the number.
        rw [hzero] at hz ⊢
        have hzeros : ds = List.replicate (z + 1) '0' := by
          rw [hz, List.replicate_succ', ofNat, Nat.toDigits_zero]
        exact ⟨z + 1, by rw [Nat.mul_zero, Nat.zero_add, hlast, hzeros]⟩
      · refine ⟨z, ?_⟩
        calc ds ++ [c] = List.replicate z '0' ++ (ofNat (ofDigits ds) ++ ofNat (digitValue c)) := by
              rw [hlast, ← List.append_assoc, ← hz]
          _ = List.replicate z '0' ++ ofNat (10 * ofDigits ds + digitValue c) := by
              rw [ofNat, ofNat, ofNat, Nat.toDigits_append_toDigits (by decide) hpos (digitValue_lt hc)]

/-- A number has no more digits than a run that it is read from. -/
theorem length_ofNat_ofDigits_le (hdigits : ∀ c ∈ ds, c.isDigit = true) (hne : ds ≠ []) :
    (ofNat (ofDigits ds)).length ≤ ds.length := by
  obtain ⟨z, hz⟩ := exists_zeros hdigits hne
  have hlen := congrArg List.length hz
  rw [List.length_append] at hlen
  omega

theorem isDigit_of_mem_zeros {z n : Nat} (h : c ∈ List.replicate z '0' ++ ofNat n) :
    c.isDigit = true := by
  rcases List.mem_append.1 h with hzero | hdigit
  · rw [List.eq_of_mem_replicate hzero]
    decide
  · exact isDigit_of_mem_ofNat hdigit

/-- The decimal text of an integer with `z` zeros more in front of its digits. -/
def padded (z : Nat) : Int → List Char
  | .ofNat n => List.replicate z '0' ++ ofNat n
  | .negSucc n => '-' :: (List.replicate z '0' ++ ofNat (n + 1))

theorem padded_zero (n : Int) : padded 0 n = ofInt n := by
  cases n <;> rfl

end Text.Numeral

/-! ## Numerals -/

/-- The text is a way to write the integer with `z` zeros more than it needs. -/
inductive IsNumeral (z : Nat) (n : Int) : List Char → Prop where
  | plain : IsNumeral z n (Text.Numeral.padded z n)
  | plus : 0 ≤ n → IsNumeral z n ('+' :: Text.Numeral.padded z n)
  /-- Zero may have any sign. -/
  | minus : n = 0 → IsNumeral z n ('-' :: Text.Numeral.padded z n)

/-- A numeral is a sign, zeros and the digits of the number without its sign. -/
theorem isNumeral_iff {z : Nat} {n : Int} {w : List Char} :
    IsNumeral z n w ↔ ∃ sign, IsSign sign ∧ n = signed sign n.natAbs ∧
      w = sign ++ (List.replicate z '0' ++ Text.Numeral.ofNat n.natAbs) := by
  constructor
  · rintro (_ | hn | hn)
    · cases n with
      | ofNat k => exact ⟨[], .inl rfl, rfl, rfl⟩
      | negSucc k => exact ⟨['-'], .inr (.inr rfl), rfl, rfl⟩
    · obtain ⟨k, rfl⟩ := Int.eq_ofNat_of_zero_le hn
      exact ⟨['+'], .inr (.inl rfl), rfl, rfl⟩
    · subst hn
      exact ⟨['-'], .inr (.inr rfl), rfl, rfl⟩
  · rintro ⟨sign, rfl | rfl | rfl, hn, rfl⟩
    · obtain ⟨k, rfl⟩ := Int.eq_ofNat_of_zero_le (hn ▸ Int.natCast_nonneg _ : 0 ≤ n)
      exact .plain
    · obtain ⟨k, rfl⟩ := Int.eq_ofNat_of_zero_le (hn ▸ Int.natCast_nonneg _ : 0 ≤ n)
      exact .plus (Int.natCast_nonneg k)
    · cases n with
      | ofNat k =>
        have hk : (k : Int) = -k := hn
        obtain rfl : k = 0 := by omega
        exact .minus rfl
      | negSucc k => exact .plain

/-- A token that starts with a numeral starts with its digits as a run. -/
theorem IsNumeral.startsWithRun {z : Nat} {n : Int} {w u : List Char} (h : IsNumeral z n w)
    (hu : ∀ c ∈ u.head?, c.isDigit = false) :
    ∃ sign, n = signed sign n.natAbs ∧ StartsWithRun (String.ofList (w ++ u)) sign
      (List.replicate z '0' ++ Text.Numeral.ofNat n.natAbs) u := by
  obtain ⟨sign, hsign, hn, rfl⟩ := isNumeral_iff.1 h
  refine ⟨sign, hn, ?_, hsign, fun c hc => Text.Numeral.isDigit_of_mem_zeros hc, ?_, hu⟩
  · rw [String.toList_ofList, List.append_assoc]
  · exact List.append_ne_nil_of_right_ne_nil _ (Text.Numeral.ofNat_ne_nil _)

/-- A token is read as an integer if it is a numeral of the integer, with few enough digits, and
something behind it that does not start with a digit. -/
theorem atom_eq_int_iff {t : String} {n : Int} :
    atom t = .ok (.int n) ↔ ∃ z w u, t = String.ofList (w ++ u) ∧ IsNumeral z n w ∧
      z + (Nat.toDigits 10 n.natAbs).length ≤ 4300 ∧ ∀ c ∈ u.head?, c.isDigit = false := by
  constructor
  · intro h
    rcases atom_eq_ok h with ⟨-, hv⟩ | ⟨sign, digits, rest, hrun, hshort, hv⟩
    · cases hv
    · obtain ⟨z, hz⟩ := Text.Numeral.exists_zeros hrun.isDigit hrun.ne_nil
      have hn : n = signed sign (Text.Numeral.ofDigits digits) := Value.int.inj hv
      have habs : n.natAbs = Text.Numeral.ofDigits digits := by
        rw [hn, natAbs_signed]
      refine ⟨z, sign ++ digits, rest, ?_, isNumeral_iff.2 ⟨sign, hrun.isSign, ?_, ?_⟩, ?_, hrun.ends⟩
      · rw [List.append_assoc, ← hrun.toList_eq, String.ofList_toList]
      · rw [habs, hn]
      · rw [habs, ← hz]
      · rw [hz, List.length_append, List.length_replicate, ← habs] at hshort
        exact hshort
  · rintro ⟨z, w, u, rfl, hw, hshort, hu⟩
    obtain ⟨sign, hn, hrun⟩ := hw.startsWithRun hu
    have hlen : ¬ 4300 < (List.replicate z '0' ++ Text.Numeral.ofNat n.natAbs).length := by
      rw [List.length_append, List.length_replicate]
      exact Nat.not_lt.2 hshort
    rw [hrun.atom_eq, if_neg hlen, Text.Numeral.ofDigits_zeros, Text.Numeral.ofDigits_ofNat, ← hn]

/-- The tokens that are not symbols start with a digit, or with a sign and a digit. -/
theorem atom_number_iff {t : String} :
    ((∃ n, atom t = .ok (.int n)) ∨ ∃ f, atom t = .error f) ↔ StartsWithDigit t := by
  rcases atom_cases t with ⟨sign, digits, rest, hrun⟩ | ⟨hnone, hsymbol⟩
  · refine ⟨fun _ => hrun.startsWithDigit, fun _ => ?_⟩
    rw [hrun.atom_eq]
    split
    · exact Or.inr ⟨_, rfl⟩
    · exact Or.inl ⟨_, rfl⟩
  · rw [hsymbol]
    simp [hnone]

/-- What tokens are read as. A numeral of an integer is read as the integer, whatever stands behind it, if
it has at most 4300 digits with the zeros in front; the printed text of an integer is a numeral. A token is
read as an integer or is refused if it starts with a digit, or with a sign and a digit; it is refused if
more than 4300 digits stand there, with a fault that counts them; and it is the symbol of its name
otherwise. Only numerals, with something behind them, are read as integers. -/
theorem atom_exact :
    (∀ (n : Int) (z : Nat) (w u : List Char), IsNumeral z n w →
      z + (Nat.toDigits 10 n.natAbs).length ≤ 4300 → (∀ c ∈ u.head?, c.isDigit = false) →
      atom (String.ofList (w ++ u)) = .ok (.int n)) ∧
    (∀ (n : Int) (limit : Nat), (Nat.toDigits 10 n.natAbs).length ≤ 4300 →
      (Value.int n).printed limit = .ok (String.ofList (Text.Numeral.padded 0 n))) ∧
    ∀ t : String,
      (((∃ n, atom t = .ok (.int n)) ∨ ∃ f, atom t = .error f) ↔ StartsWithDigit t) ∧
      (∀ f, atom t = .error f ↔
        ∃ k, StartsWithInteger t k ∧ 4300 < k ∧ f = .longNumeral k ∧ f.kind.label = "ValueError") ∧
      (¬ StartsWithDigit t → atom t = .ok (.symbol t)) ∧
      ∀ n, atom t = .ok (.int n) → ∃ z w u, t = String.ofList (w ++ u) ∧ IsNumeral z n w ∧
        z + (Nat.toDigits 10 n.natAbs).length ≤ 4300 ∧ ∀ c ∈ u.head?, c.isDigit = false := by
  refine ⟨?_, ?_, fun t =>
    ⟨atom_number_iff, ?_, atom_of_not_startsWithDigit, fun n => atom_eq_int_iff.1⟩⟩
  · intro n z w u hw hshort hu
    exact atom_eq_int_iff.2 ⟨z, w, u, rfl, hw, hshort, hu⟩
  · intro n limit hshort
    rw [Text.Numeral.padded_zero, Value.printed, Value.print, writeInt_eq hshort]
    rfl
  · intro f
    rw [atom_eq_error_iff]
    constructor
    · rintro ⟨k, hlong, rfl⟩
      exact ⟨k, hlong.1, hlong.2, rfl, rfl⟩
    · rintro ⟨k, hstarts, hlong, rfl, -⟩
      exact ⟨k, ⟨hstarts, hlong⟩, rfl⟩

/-- Zeros behind the sign and a digit of another script behind the digits; a minus sign before zero; too
many digits, the first of which are zeros; and a token with two signs. -/
theorem atom_exact_signs :
    atom "-007٣" = .ok (.int (-7)) ∧ atom "-00" = .ok (.int 0) ∧
      (Value.int (-7)).printed 0 = .ok "-7" ∧
      atom (String.ofList ('+' :: Text.Numeral.padded 4300 1 ++ ['x'])) = .error (.longNumeral 4301) ∧
      atom "+-5" = .ok (.symbol "+-5") := by
  obtain ⟨hread, hprinted, htoken⟩ := atom_exact
  refine ⟨?_, ?_, ?_, ?_, ?_⟩
  · refine hread (-7) 2 _ ['٣'] .plain (by decide) ?_
    rintro c ⟨⟩
    decide
  · exact hread 0 1 _ [] (.minus rfl) (by decide) nofun
  · exact hprinted (-7) 0 (by decide)
  · have hx : ∀ c ∈ ['x'].head?, c.isDigit = false := by
      rintro c ⟨⟩
      decide
    obtain ⟨sign, -, hrun⟩ := (IsNumeral.plus (z := 4300) (n := 1) (by decide)).startsWithRun hx
    refine ((htoken _).2.1 _).2 ⟨4301, ⟨sign, _, ['x'], hrun.toList_eq, hrun.isSign, hrun.isDigit,
      hrun.ends, ?_⟩, by decide, rfl, rfl⟩
    rw [List.length_append, List.length_replicate]
    rfl
  · refine (htoken _).2.2.1 ?_
    rw [startsWithDigit_iff]
    rintro ⟨c, ⟨⟩, hdigit⟩
    exact absurd hdigit (by decide)

end Lisplet
