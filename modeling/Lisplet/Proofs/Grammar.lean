import Mathlib.Order.Bounds.Basic
import Lisplet.Token.Stream

/-!
# The grammar of forms

Reading one form from a stream takes the tokens up to the first place where the parentheses balance,
and gives the one tree that those tokens spell out. Nothing here looks at how the reader keeps its
unfinished lists: the place is said by counting parentheses, and the tree by flattening it.

Main definitions: `depth`, `FormEnd`, `InForm`, `StartsWithDigit`, `StartsWithRun`, `Overlong`,
`Value.flatten`, `Spells`. Main statements: `atom_cases`, `TokenStream.parse_exact`.
-/

namespace Lisplet

/-! ## Where a form ends -/

/-- How many more lists the first `k` tokens open than they close. -/
def depth (ts : List String) (k : Nat) : Int :=
  (ts.take k).count "(" - (ts.take k).count ")"

/-- The form under way inside `d` open lists ends with the first `m` tokens: they are the fewest
after which no list is open. -/
def FormEnd (d : Int) (ts : List String) (m : Nat) : Prop :=
  IsLeast {k | 1 ≤ k ∧ k ≤ ts.length ∧ d + depth ts k ≤ 0} m

/-- The token at place `k` belongs to the form under way; every token does if the form never ends. -/
def InForm (d : Int) (ts : List String) (k : Nat) : Prop :=
  k < ts.length ∧ ∀ m, FormEnd d ts m → k < m

/-- No token of the form under way that opens a list or is an atom stands inside `limit` lists. -/
def Nests (limit : Nat) (d : Int) (ts : List String) : Prop :=
  ∀ k t, InForm d ts k → ts[k]? = some t → t ≠ ")" → d + depth ts k < limit

/-- What one token adds to the depth. -/
def weight (t : String) : Int :=
  if t = "(" then 1 else if t = ")" then -1 else 0

@[simp]
theorem depth_zero (ts : List String) : depth ts 0 = 0 := rfl

@[simp]
theorem depth_cons_succ (t : String) (ts : List String) (k : Nat) :
    depth (t :: ts) (k + 1) = weight t + depth ts k := by
  unfold depth weight
  rw [List.take_succ_cons, List.count_cons, List.count_cons]
  by_cases hopen : t = "("
  · subst hopen
    simp
    omega
  · by_cases hclose : t = ")"
    · subst hclose
      simp
      omega
    · simp [hopen, hclose]

/-- A form ends with its next token, or it goes on and ends in what follows. -/
theorem formEnd_cons {d : Int} {t : String} {ts : List String} {m : Nat} :
    FormEnd d (t :: ts) m ↔
      (d + weight t ≤ 0 ∧ m = 1) ∨
        (0 < d + weight t ∧ ∃ m', FormEnd (d + weight t) ts m' ∧ m = m' + 1) := by
  -- Depths after the first token are depths in the tail, from a start that is shifted by the token.
  constructor
  · rintro ⟨⟨hpos, hlen, hdepth⟩, hleast⟩
    obtain ⟨m', rfl⟩ : ∃ m', m = m' + 1 := ⟨m - 1, by omega⟩
    rw [depth_cons_succ, ← Int.add_assoc] at hdepth
    by_cases hnow : d + weight t ≤ 0
    · have hone : m' + 1 ≤ 1 := hleast ⟨Nat.le_refl 1, by simp, by simpa using hnow⟩
      exact .inl ⟨hnow, by omega⟩
    · refine .inr ⟨by omega, m', ⟨⟨?_, by simpa using hlen, hdepth⟩, ?_⟩, rfl⟩
      · -- The depth is still positive, so the tokens of the tail that end the form are at least one.
        rcases m' with _ | m'
        · simp at hdepth
          omega
        · omega
      · rintro k ⟨hk, hklen, hkdepth⟩
        have hsucc : d + depth (t :: ts) (k + 1) ≤ 0 := by
          rw [depth_cons_succ, ← Int.add_assoc]
          exact hkdepth
        have : m' + 1 ≤ k + 1 := hleast ⟨by omega, by simpa using hklen, hsucc⟩
        omega
  · rintro (⟨hnow, rfl⟩ | ⟨hlater, m', ⟨⟨hpos, hlen, hdepth⟩, hleast⟩, rfl⟩)
    · exact ⟨⟨Nat.le_refl 1, by simp, by simpa using hnow⟩, fun k hk => hk.1⟩
    · refine ⟨⟨by omega, by simpa using hlen, ?_⟩, ?_⟩
      · rw [depth_cons_succ, ← Int.add_assoc]
        exact hdepth
      · rintro k ⟨hk, hklen, hkdepth⟩
        obtain ⟨k', rfl⟩ : ∃ k', k = k' + 1 := ⟨k - 1, by omega⟩
        rw [depth_cons_succ, ← Int.add_assoc] at hkdepth
        rcases k' with _ | k'
        · simp at hkdepth
          omega
        · have : m' ≤ k' + 1 := hleast ⟨by omega, by simpa using hklen, hkdepth⟩
          omega

theorem inForm_zero (d : Int) (t : String) (ts : List String) : InForm d (t :: ts) 0 :=
  ⟨by simp, fun _ hm => hm.1.1⟩

theorem inForm_succ {d : Int} {t : String} {ts : List String} {k : Nat} :
    InForm d (t :: ts) (k + 1) ↔ 0 < d + weight t ∧ InForm (d + weight t) ts k := by
  constructor
  · rintro ⟨hlen, hends⟩
    have hlater : 0 < d + weight t := by
      by_contra hnow
      have := hends 1 (formEnd_cons.2 (.inl ⟨by omega, rfl⟩))
      omega
    refine ⟨hlater, by simpa using hlen, fun m hm => ?_⟩
    have := hends (m + 1) (formEnd_cons.2 (.inr ⟨hlater, m, hm, rfl⟩))
    omega
  · rintro ⟨hlater, hlen, hends⟩
    refine ⟨by simpa using hlen, fun m hm => ?_⟩
    rcases formEnd_cons.1 hm with ⟨hnow, -⟩ | ⟨-, m', hm', rfl⟩
    · omega
    · have := hends m' hm'
      omega

theorem Nests.lt {limit : Nat} {d : Int} {t : String} {ts : List String}
    (h : Nests limit d (t :: ts)) (ht : t ≠ ")") : d < limit := by
  simpa using h 0 t (inForm_zero d t ts) rfl ht

theorem Nests.tail {limit : Nat} {d : Int} {t : String} {ts : List String}
    (h : Nests limit d (t :: ts)) (hlater : 0 < d + weight t) : Nests limit (d + weight t) ts := by
  intro k u hk hu hne
  have := h (k + 1) u (inForm_succ.2 ⟨hlater, hk⟩) hu hne
  rw [depth_cons_succ] at this
  omega

/-- Tokens that are fewer than the limit cannot nest beyond it. -/
theorem nests_of_length_le {limit : Nat} {ts : List String} (h : ts.length ≤ limit) :
    Nests limit 0 ts := by
  intro k t hk _ _
  have hcount : (ts.take k).count "(" ≤ (ts.take k).length := List.count_le_length
  have hlen := hk.1
  rw [List.length_take] at hcount
  unfold depth
  omega

/-! ## Atoms -/

/-- A sign, or none. -/
def IsSign (sign : List Char) : Prop :=
  sign = [] ∨ sign = ['+'] ∨ sign = ['-']

/-- A token starts with an integer of `n` digits: a sign or none, then exactly `n` digits. -/
def StartsWithInteger (t : String) (n : Nat) : Prop :=
  ∃ sign digits rest, t.toList = sign ++ (digits ++ rest) ∧ IsSign sign ∧
    (∀ c ∈ digits, c.isDigit = true) ∧ (∀ c ∈ rest.head?, c.isDigit = false) ∧ digits.length = n

/-- A token starts with an integer of more digits than are read. -/
def Overlong (t : String) (n : Nat) : Prop :=
  StartsWithInteger t n ∧ 4300 < n

theorem Overlong.length_lt {t : String} {n : Nat} (h : Overlong t n) :
    4300 < t.toList.length := by
  obtain ⟨⟨sign, digits, rest, hcs, -, -, -, hlen⟩, hlong⟩ := h
  simp only [hcs, List.length_append]
  omega

/-- A sign is what stands before the rest that is searched for digits. -/
theorem splitSign_cases (cs : List Char) :
    ∃ sign, cs = sign ++ (splitSign cs).2 ∧ IsSign sign := by
  unfold splitSign
  split
  · exact ⟨['-'], rfl, .inr (.inr rfl)⟩
  · exact ⟨['+'], rfl, .inr (.inl rfl)⟩
  · exact ⟨[], rfl, .inl rfl⟩

/-- A digit is no sign, so a sign in front of digits is split off, and only that. -/
theorem splitSign_digits {sign digits r : List Char}
    (hsign : IsSign sign) (hdigits : ∀ c ∈ digits, c.isDigit = true) (hne : digits ≠ []) :
    splitSign (sign ++ (digits ++ r)) = (decide (sign = ['-']), digits ++ r) := by
  rcases hsign with rfl | rfl | rfl
  · obtain ⟨c, digits, rfl⟩ := List.exists_cons_of_ne_nil hne
    have hc := hdigits c (by simp)
    unfold splitSign
    split
    · rename_i heq
      simp only [List.nil_append, List.cons_append, List.cons.injEq] at heq
      exact absurd (heq.1 ▸ hc) (by decide)
    · rename_i heq
      simp only [List.nil_append, List.cons_append, List.cons.injEq] at heq
      exact absurd (heq.1 ▸ hc) (by decide)
    · rfl
  · rfl
  · rfl

/-- A run of digits ends where the first other character stands. -/
theorem takeWhile_digits {digits r : List Char} (hdigits : ∀ c ∈ digits, c.isDigit = true)
    (hr : ∀ c ∈ r.head?, c.isDigit = false) :
    (digits ++ r).takeWhile Char.isDigit = digits := by
  rw [List.takeWhile_append_of_pos hdigits]
  cases r with
  | nil => simp
  | cons c r => simp [hr c (by simp)]

/-- A token starts with a digit, or with a sign and a digit. -/
def StartsWithDigit (t : String) : Prop :=
  ∃ sign c rest, t.toList = sign ++ c :: rest ∧ IsSign sign ∧ c.isDigit = true

/-- Only what stands after the sign has to be looked at. -/
theorem startsWithDigit_iff {t : String} :
    StartsWithDigit t ↔ ∃ c ∈ (splitSign t.toList).2.head?, c.isDigit = true := by
  constructor
  · rintro ⟨sign, c, rest, hcs, hsign, hc⟩
    have hdigit : ∀ d ∈ [c], d.isDigit = true := by simpa using hc
    have hsplit : splitSign t.toList = (decide (sign = ['-']), [c] ++ rest) := by
      rw [hcs]
      exact splitSign_digits hsign hdigit (List.cons_ne_nil c [])
    exact ⟨c, by simp [hsplit], hc⟩
  · rintro ⟨c, hmem, hc⟩
    obtain ⟨sign, hcs, hsign⟩ := splitSign_cases t.toList
    obtain ⟨rest, hrest⟩ := List.head?_eq_some_iff.1 hmem
    exact ⟨sign, c, rest, hrest ▸ hcs, hsign, hc⟩

/-- A token is a sign or none, a run of digits, and a rest that does not go on with a digit. -/
structure StartsWithRun (t : String) (sign digits rest : List Char) : Prop where
  toList_eq : t.toList = sign ++ (digits ++ rest)
  isSign : IsSign sign
  isDigit : ∀ c ∈ digits, c.isDigit = true
  ne_nil : digits ≠ []
  ends : ∀ c ∈ rest.head?, c.isDigit = false

theorem StartsWithRun.startsWithDigit {t : String} {sign digits rest : List Char}
    (h : StartsWithRun t sign digits rest) : StartsWithDigit t := by
  obtain ⟨c, later, rfl⟩ := List.exists_cons_of_ne_nil h.ne_nil
  exact ⟨sign, c, later ++ rest, h.toList_eq, h.isSign, h.isDigit c List.mem_cons_self⟩

/-- The integer of a sign and a number. -/
def signed (sign : List Char) (n : Nat) : Int :=
  if sign = ['-'] then -n else n

theorem natAbs_signed (sign : List Char) (n : Nat) : (signed sign n).natAbs = n := by
  unfold signed
  split
  · rw [Int.natAbs_neg, Int.natAbs_natCast]
  · rw [Int.natAbs_natCast]

/-- A token that starts with a run of digits is the integer of these digits, unless they are too many. -/
theorem StartsWithRun.atom_eq {t : String} {sign digits rest : List Char}
    (h : StartsWithRun t sign digits rest) :
    atom t = if 4300 < digits.length then .error (.longNumeral digits.length)
      else .ok (.int (signed sign (Text.Numeral.ofDigits digits))) := by
  have hsplit : splitSign t.toList = (decide (sign = ['-']), digits ++ rest) := by
    rw [h.toList_eq]
    exact splitSign_digits h.isSign h.isDigit h.ne_nil
  simp only [atom, hsplit, takeWhile_digits h.isDigit h.ends, decide_eq_true_eq]
  rw [if_neg (by simpa using h.ne_nil), Text.Numeral.maxDigits, signed]

/-- A token starts with a run of digits, or it is a symbol. -/
theorem atom_cases (t : String) :
    (∃ sign digits rest, StartsWithRun t sign digits rest) ∨
      ¬ StartsWithDigit t ∧ atom t = .ok (.symbol t) := by
  by_cases h : StartsWithDigit t
  · left
    obtain ⟨c, hmem, hc⟩ := startsWithDigit_iff.1 h
    obtain ⟨r, hr⟩ := List.head?_eq_some_iff.1 hmem
    obtain ⟨sign, hcs, hsign⟩ := splitSign_cases t.toList
    refine ⟨sign, (c :: r).takeWhile Char.isDigit, (c :: r).dropWhile Char.isDigit, ?_, hsign, ?_, ?_, ?_⟩
    · rw [List.takeWhile_append_dropWhile, ← hr]
      exact hcs
    · exact List.all_eq_true.1 List.all_takeWhile
    · simp [hc]
    · intro d hd
      have hhead := List.head?_dropWhile_not Char.isDigit (c :: r)
      rw [Option.mem_def] at hd
      rwa [hd] at hhead
  · right
    have hnone : (splitSign t.toList).2.takeWhile Char.isDigit = [] := by
      cases hrest : (splitSign t.toList).2 with
      | nil => rfl
      | cons c r =>
        have hc : c.isDigit ≠ true := fun hc => h (startsWithDigit_iff.2 ⟨c, by simp [hrest], hc⟩)
        exact List.takeWhile_cons_of_neg hc
    exact ⟨h, by simp [atom, hnone]⟩

theorem atom_of_not_startsWithDigit {t : String} (h : ¬ StartsWithDigit t) :
    atom t = .ok (.symbol t) := by
  rcases atom_cases t with ⟨sign, digits, rest, hrun⟩ | ⟨-, hsymbol⟩
  · exact absurd hrun.startsWithDigit h
  · exact hsymbol

/-- What a token can be read as: the symbol of its name, or the integer of the digits that it starts
with. -/
theorem atom_eq_ok {t : String} {v : Value} (h : atom t = .ok v) :
    (¬ StartsWithDigit t ∧ v = .symbol t) ∨
      ∃ sign digits rest, StartsWithRun t sign digits rest ∧ digits.length ≤ 4300 ∧
        v = .int (signed sign (Text.Numeral.ofDigits digits)) := by
  rcases atom_cases t with ⟨sign, digits, rest, hrun⟩ | ⟨hnone, hsymbol⟩
  · rw [hrun.atom_eq] at h
    split at h
    · cases h
    · rename_i hshort
      cases h
      exact Or.inr ⟨sign, digits, rest, hrun, Nat.not_lt.1 hshort, rfl⟩
  · rw [hsymbol] at h
    cases h
    exact Or.inl ⟨hnone, rfl⟩

/-- The only tokens that are no atom are those that start with an over-long integer. -/
theorem atom_eq_error_iff {t : String} {f : Fault} :
    atom t = .error f ↔ ∃ n, Overlong t n ∧ f = .longNumeral n := by
  constructor
  · intro h
    rcases atom_cases t with ⟨sign, digits, rest, hrun⟩ | ⟨-, hsymbol⟩
    · rw [hrun.atom_eq] at h
      split at h
      · rename_i hlong
        cases h
        exact ⟨_, ⟨⟨sign, digits, rest, hrun.toList_eq, hrun.isSign, hrun.isDigit, hrun.ends, rfl⟩,
          hlong⟩, rfl⟩
      · cases h
    · rw [hsymbol] at h
      cases h
  · rintro ⟨n, ⟨⟨sign, digits, rest, hcs, hsign, hdigits, hrest, rfl⟩, hlong⟩, rfl⟩
    have hne : digits ≠ [] := by
      rintro rfl
      simp at hlong
    have hrun : StartsWithRun t sign digits rest := ⟨hcs, hsign, hdigits, hne, hrest⟩
    rw [hrun.atom_eq, if_pos hlong]

/-- Parentheses are not over-long, having no digits. -/
theorem not_overlong_paren {t : String} (ht : t = "(" ∨ t = ")") (n : Nat) : ¬ Overlong t n := by
  intro h
  have herror := atom_eq_error_iff.2 ⟨n, h, rfl⟩
  rcases ht with rfl | rfl <;> exact absurd herror (by simp [atom, splitSign])

/-! ## Trees and the tokens that spell them -/

/-- What a token stands for in a flattened tree. -/
inductive Piece where
  | opening
  | closing
  | item (v : Value)

/-- What a token stands for, unless it starts with an over-long integer. -/
def Piece.ofToken? (t : String) : Option Piece :=
  if t = "(" then some .opening
  else if t = ")" then some .closing
  else
    match atom t with
    | .ok v => some (.item v)
    | .error _ => none

mutual

/-- A tree as parentheses and atoms. -/
def Value.flatten : Value → List Piece
  | .literal items => .opening :: (flattenAll items ++ [.closing])
  | v => [.item v]

/-- Trees as parentheses and atoms, one after the other. -/
def flattenAll : List Value → List Piece
  | [] => []
  | v :: vs => v.flatten ++ flattenAll vs

end

/-- Tokens spell a tree if they are its parentheses and atoms. -/
def Spells (ts : List String) (v : Value) : Prop :=
  ts.map Piece.ofToken? = v.flatten.map some

theorem flattenAll_append (vs ws : List Value) :
    flattenAll (vs ++ ws) = flattenAll vs ++ flattenAll ws := by
  induction vs with
  | nil => rfl
  | cons v vs ih => simp [flattenAll, ih]

/-- A tree is a literal list, or it is an atom of its own. -/
theorem Value.flatten_cases (v : Value) :
    (∃ items, v = .literal items) ∨ v.flatten = [.item v] := by
  cases v with
  | list id items =>
    cases id with
    | none => exact .inl ⟨items, rfl⟩
    | some id => exact .inr (by simp [Value.flatten])
  | noValue => exact .inr (by simp [Value.flatten])
  | bool b => exact .inr (by simp [Value.flatten])
  | int n => exact .inr (by simp [Value.flatten])
  | symbol x => exact .inr (by simp [Value.flatten])
  | primitive p home => exact .inr (by simp [Value.flatten])
  | closure id formals body frame => exact .inr (by simp [Value.flatten])
  | text s => exact .inr (by simp [Value.flatten])

/-- No tree starts with a closing parenthesis. -/
theorem Value.flatten_append_ne_closing (v : Value) (r r' : List Piece) :
    v.flatten ++ r ≠ .closing :: r' := by
  rcases v.flatten_cases with ⟨items, rfl⟩ | hv
  · simp [Value.flatten]
  · simp [hv]

mutual

/-- Flattened trees are a prefix code: where one starts a sequence of pieces, it is the only one. -/
theorem Value.flatten_append_inj (v w : Value) (r r' : List Piece)
    (h : v.flatten ++ r = w.flatten ++ r') : v = w ∧ r = r' := by
  -- A list starts with a parenthesis and an atom does not, so the two are of one kind.
  rcases v.flatten_cases with ⟨items, hitems⟩ | hatom
  · rcases w.flatten_cases with ⟨items', rfl⟩ | hatom'
    · subst hitems
      simp only [Value.flatten, List.cons_append, List.append_assoc, List.cons.injEq,
        true_and] at h
      obtain ⟨rfl, hr⟩ := flattenAll_append_inj items items' r r' h
      exact ⟨rfl, hr⟩
    · subst hitems
      simp [Value.flatten, hatom'] at h
  · rcases w.flatten_cases with ⟨items', rfl⟩ | hatom'
    · simp [Value.flatten, hatom] at h
    · simp only [hatom, hatom', List.cons_append, List.nil_append, List.cons.injEq,
        Piece.item.injEq] at h
      exact h

/-- The items of a list are told apart from what follows by the closing parenthesis. -/
theorem flattenAll_append_inj (vs ws : List Value) (r r' : List Piece)
    (h : flattenAll vs ++ .closing :: r = flattenAll ws ++ .closing :: r') :
    vs = ws ∧ r = r' := by
  match vs, ws with
  | [], [] => simpa [flattenAll] using h
  -- Where one list of items ends, the other one cannot go on, since no tree starts with the closing
  -- parenthesis that comes next.
  | [], w :: ws =>
    simp only [flattenAll, List.nil_append, List.append_assoc] at h
    exact absurd h.symm (w.flatten_append_ne_closing _ _)
  | v :: vs, [] =>
    simp only [flattenAll, List.nil_append, List.append_assoc] at h
    exact absurd h (v.flatten_append_ne_closing _ _)
  | v :: vs, w :: ws =>
    simp only [flattenAll, List.append_assoc] at h
    obtain ⟨rfl, htail⟩ := Value.flatten_append_inj v w _ _ h
    obtain ⟨rfl, hr⟩ := flattenAll_append_inj vs ws r r' htail
    exact ⟨rfl, hr⟩

end

/-- An atom is an integer or a symbol, never a list. -/
theorem flatten_of_atom {t : String} {v : Value} (h : atom t = .ok v) :
    v.flatten = [.item v] := by
  rcases atom_eq_ok h with ⟨-, rfl⟩ | ⟨sign, digits, rest, -, -, rfl⟩ <;> simp [Value.flatten]

/-- Tokens spell at most one tree. -/
theorem Spells.unique {ts : List String} {v w : Value} (hv : Spells ts v) (hw : Spells ts w) :
    v = w := by
  have hmap : v.flatten.map some = w.flatten.map some := hv.symm.trans hw
  have hflat : v.flatten = w.flatten := (List.map_inj_right fun _ _ => Option.some.inj).1 hmap
  exact (v.flatten_append_inj w [] [] (by rw [hflat])).1

/-! ## One step of the reader -/

namespace TokenStream

/-- Goes on after a form that was read whole: it is the answer, or the next item of the innermost
list. -/
def accept (limit : Nat) (pending : List (List Value)) (v : Value) (s : TokenStream) :
    Outcome Value × TokenStream :=
  match pending with
  | [] => (.value v, s)
  | items :: rest => s.parseFrom limit ((v :: items) :: rest)

/-- The stream after so many tokens were given up. -/
def skip : Nat → TokenStream → TokenStream
  | 0, s => s
  | n + 1, s => skip n s.advance.2

theorem skip_add (m n : Nat) (s : TokenStream) : s.skip (m + n) = (s.skip m).skip n := by
  induction m generalizing s with
  | zero => rw [Nat.zero_add, skip]
  | succ m ih => rw [Nat.succ_add, skip, skip, ih]

@[simp]
theorem remaining_skip (n : Nat) (s : TokenStream) : (s.skip n).remaining = s.remaining.drop n := by
  induction n generalizing s with
  | zero => rfl
  | succ n ih => rw [skip, ih, remaining_advance, List.drop_tail]

theorem skip_ofTokens (n : Nat) (ts : List String) : (ofTokens ts).skip n = ofTokens (ts.drop n) := by
  induction n generalizing ts with
  | zero => rfl
  | succ n ih =>
    cases ts with
    | nil => exact (ih []).trans (by simp)
    | cons t r => exact ih r

/-- A buffer with one token at most is empty once a token was given up. -/
theorem skip_eq_ofTokens {s : TokenStream} (hbuffer : s.buffer.length ≤ 1) (n : Nat) :
    s.skip (n + 1) = ofTokens (s.remaining.drop (n + 1)) := by
  have hadvance : s.advance.2 = ofTokens s.remaining.tail := by
    rcases s with ⟨_ | ⟨t, _ | ⟨u, b⟩⟩, _ | ⟨w, r⟩⟩ <;>
      simp_all [remaining, advance, ofTokens]
  rw [skip, hadvance, skip_ofTokens, List.drop_tail]

section Step

variable {limit : Nat} {pending : List (List Value)} {s : TokenStream} {t : String}
  {r : List String}

theorem eq_ofTokens_nil (h : s.remaining = []) : s = ofTokens [] := by
  rcases s with ⟨b, r⟩
  obtain ⟨rfl, rfl⟩ := List.append_eq_nil_iff.1 h
  rfl

theorem advance_of_remaining_nil (h : s.remaining = []) : s.advance = (none, ofTokens []) := by
  rw [eq_ofTokens_nil h]
  rfl

theorem advance_of_remaining_cons (h : s.remaining = t :: r) :
    s.advance = (some t, s.advance.2) ∧ s.advance.2.remaining = r := by
  refine ⟨Prod.ext ?_ rfl, ?_⟩
  · simp [h]
  · simp [h]

theorem parseFrom_nil (h : s.remaining = []) :
    s.parseFrom limit pending = (.fault .unexpectedEnd, ofTokens []) := by
  have hadvance := advance_of_remaining_nil h
  rw [← advance_due pending] at hadvance
  rw [parseFrom]
  split <;> simp_all

/-- What the next token does, where both ways to end a form are `accept`. -/
theorem parseFrom_cons (h : s.remaining = t :: r) :
    s.parseFrom limit pending =
      if t = ")" then
        match pending with
        | [] => (.fault .unmatchedClose, s.advance.2)
        | items :: rest => accept limit rest (listOf items) s.advance.2
      else if limit ≤ pending.length then (.exhausted, s.due pending)
      else if t = "(" then s.advance.2.parseFrom limit ([] :: pending)
      else
        match atom t with
        | .error f => (.fault f, s.advance.2)
        | .ok v => accept limit pending v s.advance.2 := by
  obtain ⟨hadvance, -⟩ := advance_of_remaining_cons h
  rw [parseFrom]
  split
  · next hnone =>
    rw [advance_due, hadvance] at hnone
    cases hnone
  · next u s' hu =>
    rw [advance_due, hadvance] at hu
    obtain ⟨rfl, rfl⟩ : t = u ∧ s.advance.2 = s' := by simpa using hu
    rcases pending with _ | ⟨items, _ | ⟨parent, rest⟩⟩ <;> rfl

/-- What is read depends on the tokens that a stream has to give, not on how many of them it has
shown. -/
theorem parseFrom_of_remaining (limit : Nat) (pending : List (List Value)) {s s' : TokenStream}
    (h : s.remaining = s'.remaining) :
    (s.parseFrom limit pending).1 = (s'.parseFrom limit pending).1 ∧
      (s.parseFrom limit pending).2.remaining = (s'.parseFrom limit pending).2.remaining := by
  generalize hts : s'.remaining = ts at h
  induction ts generalizing pending s s' with
  | nil => simp [parseFrom_nil h, parseFrom_nil hts]
  | cons t r ih =>
    obtain ⟨-, hrest⟩ := advance_of_remaining_cons h
    obtain ⟨-, hrest'⟩ := advance_of_remaining_cons hts
    have haccept : ∀ rest v,
        (accept limit rest v s.advance.2).1 = (accept limit rest v s'.advance.2).1 ∧
          (accept limit rest v s.advance.2).2.remaining =
            (accept limit rest v s'.advance.2).2.remaining := by
      intro rest v
      cases rest with
      | nil => exact ⟨rfl, hrest.trans hrest'.symm⟩
      | cons items rest => exact ih _ hrest' hrest
    rw [parseFrom_cons h, parseFrom_cons hts]
    split
    · cases pending with
      | nil => exact ⟨rfl, hrest.trans hrest'.symm⟩
      | cons items rest => exact haccept rest _
    · split
      · exact ⟨rfl, by simp [h, hts]⟩
      · split
        · exact ih _ hrest' hrest
        · split
          · exact ⟨rfl, hrest.trans hrest'.symm⟩
          · exact haccept pending _

theorem parseFrom_unmatched (h : s.remaining = ")" :: r) :
    s.parseFrom limit [] = (.fault .unmatchedClose, s.advance.2) := by
  rw [parseFrom_cons h, if_pos rfl]

theorem parseFrom_close (items : List Value) (h : s.remaining = ")" :: r) :
    s.parseFrom limit (items :: pending) = accept limit pending (listOf items) s.advance.2 := by
  rw [parseFrom_cons h, if_pos rfl]

theorem parseFrom_open (hdepth : pending.length < limit) (h : s.remaining = "(" :: r) :
    s.parseFrom limit pending = s.advance.2.parseFrom limit ([] :: pending) := by
  rw [parseFrom_cons h, if_neg (by decide), if_neg (by omega), if_pos rfl]

theorem parseFrom_atom {v : Value} (hdepth : pending.length < limit) (hopen : t ≠ "(")
    (hclose : t ≠ ")") (hatom : atom t = .ok v) (h : s.remaining = t :: r) :
    s.parseFrom limit pending = accept limit pending v s.advance.2 := by
  rw [parseFrom_cons h, if_neg hclose, if_neg (by omega), if_neg hopen, hatom]

theorem parseFrom_overlong {n : Nat} (hdepth : pending.length < limit) (hlong : Overlong t n)
    (h : s.remaining = t :: r) :
    s.parseFrom limit pending = (.fault (.longNumeral n), s.advance.2) := by
  have hopen : t ≠ "(" := fun ht => not_overlong_paren (.inl ht) n hlong
  have hclose : t ≠ ")" := fun ht => not_overlong_paren (.inr ht) n hlong
  have hatom : atom t = .error (.longNumeral n) := atom_eq_error_iff.2 ⟨n, hlong, rfl⟩
  rw [parseFrom_cons h, if_neg hclose, if_neg (by omega), if_neg hopen, hatom]

end Step

/-! ## Reading a whole form -/

/-- The pieces of the lists under way: each has been opened and holds its items so far. -/
def openPieces : List (List Value) → List Piece
  | [] => []
  | items :: rest => openPieces rest ++ .opening :: flattenAll items.reverse

theorem flatten_listOf (items : List Value) :
    (listOf items).flatten = .opening :: (flattenAll items.reverse ++ [.closing]) := by
  simp [listOf, Value.flatten]

/-- An accepted form ends the reading, or it is one more item of the innermost list. Either way its
pieces come after those of the lists under way. -/
theorem accept_cases (limit : Nat) (pending : List (List Value)) (v : Value) (s : TokenStream) :
    (pending = [] ∧ accept limit pending v s = (.value v, s)) ∨
      ∃ pending', pending'.length = pending.length ∧ 0 < pending.length ∧
        openPieces pending' = openPieces pending ++ v.flatten ∧
        accept limit pending v s = s.parseFrom limit pending' := by
  cases pending with
  | nil => exact .inl ⟨rfl, rfl⟩
  | cons items rest =>
    refine .inr ⟨(v :: items) :: rest, rfl, by simp, ?_, rfl⟩
    simp [openPieces, flattenAll_append, flattenAll]

/-- One token of a form either ends it, giving the tree of all its pieces, or leaves lists under way
that hold the piece of the token as well. -/
theorem parseFrom_step {limit : Nat} {pending : List (List Value)} {s : TokenStream} {t : String}
    {r : List String} (hshort : ∀ n, ¬ Overlong t n) (hfirst : pending = [] → t ≠ ")")
    (hnests : Nests limit pending.length (t :: r)) (h : s.remaining = t :: r) :
    (pending.length + weight t ≤ 0 ∧ ∃ v, s.parseFrom limit pending = (.value v, s.advance.2) ∧
        v.flatten.map some = (openPieces pending).map some ++ [Piece.ofToken? t]) ∨
      (0 < pending.length + weight t ∧
        ∃ pending' : List (List Value), pending'.length = pending.length + weight t ∧
        s.parseFrom limit pending = s.advance.2.parseFrom limit pending' ∧
        (openPieces pending').map some = (openPieces pending).map some ++ [Piece.ofToken? t]) := by
  by_cases hclose : t = ")"
  · -- The innermost list is complete and becomes an item of the list around it, or the answer.
    subst hclose
    obtain ⟨items, rest, rfl⟩ := List.exists_cons_of_ne_nil fun hnil => hfirst hnil rfl
    have hdown : ((items :: rest).length : Int) + weight ")" = rest.length := by
      rw [show weight ")" = -1 from rfl, List.length_cons]
      omega
    have hpieces : openPieces rest ++ (listOf items).flatten =
        openPieces (items :: rest) ++ [.closing] := by
      simp [openPieces, flatten_listOf]
    rw [parseFrom_close items h, hdown]
    rcases accept_cases limit rest (listOf items) s.advance.2 with
      ⟨rfl, haccept⟩ | ⟨pending', hlen, hpos, hopen, haccept⟩
    · refine .inl ⟨by simp, _, haccept, ?_⟩
      simpa [openPieces, Piece.ofToken?] using congrArg (List.map some) hpieces
    · refine .inr ⟨by omega, pending', by omega, haccept, ?_⟩
      simpa [hopen, Piece.ofToken?] using congrArg (List.map some) hpieces
  · have hlimit : pending.length < limit := by
      have := hnests.lt hclose
      omega
    by_cases hopen : t = "("
    · -- One more list is under way, with nothing in it yet.
      subst hopen
      have hup : ((pending.length : Int) + weight "(") = ([] :: pending).length := by
        simp [weight]
      rw [hup]
      refine .inr ⟨by simp, [] :: pending, rfl, parseFrom_open hlimit h, ?_⟩
      simp [openPieces, flattenAll, Piece.ofToken?]
    · -- An atom is complete by itself and leaves the depth as it is.
      have hsame : (pending.length : Int) + weight t = pending.length := by
        simp [weight, hopen, hclose]
      cases hatom : atom t with
      | error f =>
        obtain ⟨n, hlong, -⟩ := atom_eq_error_iff.1 hatom
        exact absurd hlong (hshort n)
      | ok v =>
        have hflat := flatten_of_atom hatom
        have hpiece : Piece.ofToken? t = some (.item v) := by
          simp [Piece.ofToken?, hopen, hclose, hatom]
        rw [parseFrom_atom hlimit hopen hclose hatom h, hsame]
        rcases accept_cases limit pending v s.advance.2 with
          ⟨rfl, haccept⟩ | ⟨pending', hlen, hpos, hpieces, haccept⟩
        · refine .inl ⟨by simp, v, haccept, ?_⟩
          simp [hflat, hpiece, openPieces]
        · refine .inr ⟨by omega, pending', by omega, haccept, ?_⟩
          simp [hpieces, hflat, hpiece]

section Run

variable {limit : Nat} {ts : List String}

/-- The tokens up to the end of a form are read as the tree that they spell, together with the
lists that were under way. -/
theorem parseFrom_of_formEnd (pending : List (List Value)) {s : TokenStream} {m : Nat}
    (hs : s.remaining = ts) (hend : FormEnd pending.length ts m)
    (hnests : Nests limit pending.length ts)
    (hshort : ∀ k t n, InForm pending.length ts k → ts[k]? = some t → ¬ Overlong t n)
    (hfirst : pending = [] → ts.head? ≠ some ")") :
    ∃ v, s.parseFrom limit pending = (.value v, s.skip m) ∧
      v.flatten.map some = (openPieces pending).map some ++ (ts.take m).map Piece.ofToken? := by
  -- The invariant: the pieces of the lists under way, followed by those of the tokens still to come,
  -- are the same before and after each token.
  induction ts generalizing pending s m with
  | nil =>
    obtain ⟨⟨hpos, hlen, -⟩, -⟩ := hend
    simp at hlen
    omega
  | cons t r ih =>
    have hstep := parseFrom_step (fun n => hshort 0 t n (inForm_zero _ _ _) rfl)
      (fun hnil ht => hfirst hnil (by simp [ht]))
      hnests hs
    rcases formEnd_cons.1 hend with ⟨hnow, rfl⟩ | ⟨hlater, m', hend', rfl⟩
    · rcases hstep with ⟨-, v, hparse, hpieces⟩ | ⟨hlater, -⟩
      · exact ⟨v, hparse, by simpa using hpieces⟩
      · omega
    · rcases hstep with ⟨hnow, -⟩ | ⟨-, pending', hlen, hparse, hpieces⟩
      · omega
      · obtain ⟨v, hv, hflat⟩ := ih pending' (advance_of_remaining_cons hs).2 (hlen ▸ hend')
          (hlen ▸ hnests.tail hlater)
          (fun k u n hk hu => hshort (k + 1) u n (inForm_succ.2 ⟨hlater, hlen ▸ hk⟩) hu)
          (fun hnil => by simp [hnil] at hlen; omega)
        refine ⟨v, by rw [hparse, hv, skip], ?_⟩
        rw [hflat, hpieces]
        simp

/-- A form that never ends takes every token and then fails. -/
theorem parseFrom_of_no_formEnd (pending : List (List Value)) {s : TokenStream}
    (hs : s.remaining = ts) (hend : ∀ m, ¬ FormEnd pending.length ts m)
    (hnests : Nests limit pending.length ts)
    (hshort : ∀ k t n, InForm pending.length ts k → ts[k]? = some t → ¬ Overlong t n) :
    s.parseFrom limit pending = (.fault .unexpectedEnd, ofTokens []) := by
  induction ts generalizing pending s with
  | nil => exact parseFrom_nil hs
  | cons t r ih =>
    -- If the depth were used up here, the form would end with this token.
    have hlater : 0 < pending.length + weight t := by
      by_contra hnow
      exact hend 1 (formEnd_cons.2 (.inl ⟨by omega, rfl⟩))
    have hstep := parseFrom_step (fun n => hshort 0 t n (inForm_zero _ _ _) rfl)
      (fun hnil ht => by simp [hnil, ht, weight] at hlater)
      hnests hs
    rcases hstep with ⟨hnow, -⟩ | ⟨-, pending', hlen, hparse, -⟩
    · omega
    · rw [hparse]
      refine ih pending' (advance_of_remaining_cons hs).2 (fun m hm => ?_) (hlen ▸ hnests.tail hlater)
        (fun k u n hk hu => hshort (k + 1) u n (inForm_succ.2 ⟨hlater, hlen ▸ hk⟩) hu)
      exact hend (m + 1) (formEnd_cons.2 (.inr ⟨hlater, m, hlen ▸ hm, rfl⟩))

/-- The first over-long integer of a form is met before anything else goes wrong, and it is the last
token to be taken. -/
theorem parseFrom_of_overlong (pending : List (List Value)) {s : TokenStream} {j : Nat}
    {u : String} {n : Nat} (hs : s.remaining = ts) (hj : InForm pending.length ts j) (hu : ts[j]? = some u)
    (hlong : Overlong u n) (hshort : ∀ i t n, i < j → ts[i]? = some t → ¬ Overlong t n)
    (hnests : Nests limit pending.length ts) :
    s.parseFrom limit pending = (.fault (.longNumeral n), s.skip (j + 1)) := by
  induction ts generalizing pending s j with
  | nil => simp at hu
  | cons t r ih =>
    cases j with
    | zero =>
      obtain rfl : t = u := by simpa using hu
      have hclose : t ≠ ")" := fun ht => not_overlong_paren (.inr ht) n hlong
      have hlimit := hnests.lt hclose
      exact parseFrom_overlong (by omega) hlong hs
    | succ j =>
      -- The form goes on past this token, because a later token belongs to it.
      obtain ⟨hlater, hj'⟩ := inForm_succ.1 hj
      have hstep := parseFrom_step (fun n => hshort 0 t n (by omega) rfl)
        (fun hnil ht => by simp [hnil, ht, weight] at hlater)
        hnests hs
      rcases hstep with ⟨hnow, -⟩ | ⟨-, pending', hlen, hparse, -⟩
      · omega
      · rw [hparse, skip]
        exact ih pending' (advance_of_remaining_cons hs).2 (hlen ▸ hj') hu
          (fun i w k hi hw => hshort (i + 1) w k (by omega) hw) (hlen ▸ hnests.tail hlater)

end Run

/-- Reading accepts exactly the grammar and takes exactly one form. Let the stream have shown at most
one token, and let no token of the form stand too deep. If none of them is over-long, then no tokens at
all and a closing parenthesis in front are malformed; a form that ends is read as the one tree that its
tokens spell, and what follows is left; a form that does not end takes every token and is malformed.
Otherwise the first over-long token of the form is the fault, and the last token taken. -/
theorem parse_exact (limit : Nat) (s : TokenStream) (ts : List String)
    (hbuffer : s.buffer.length ≤ 1) (hs : s.remaining = ts) (hnests : Nests limit 0 ts) :
    ((∀ k t n, InForm 0 ts k → ts[k]? = some t → ¬ Overlong t n) →
      (ts = [] → s.parse limit = (.fault .unexpectedEnd, ofTokens [])) ∧
      (∀ r, ts = ")" :: r → s.parse limit = (.fault .unmatchedClose, ofTokens r)) ∧
      (∀ m, ts.head? ≠ some ")" → FormEnd 0 ts m →
        ∃ v, s.parse limit = (.value v, ofTokens (ts.drop m)) ∧ Spells (ts.take m) v ∧
          ∀ w, Spells (ts.take m) w → w = v) ∧
      ((∀ m, ¬ FormEnd 0 ts m) → s.parse limit = (.fault .unexpectedEnd, ofTokens []))) ∧
    (∀ j t n, InForm 0 ts j → ts[j]? = some t → Overlong t n →
      (∀ i u n', i < j → ts[i]? = some u → ¬ Overlong u n') →
      s.parse limit = (.fault (.longNumeral n), ofTokens (ts.drop (j + 1)))) ∧
    (Fault.unexpectedEnd.kind.label = "SchemeSyntaxError" ∧
      Fault.unexpectedEnd.message = "unexpected end of input" ∧
      Fault.unmatchedClose.kind.label = "SchemeSyntaxError" ∧
      Fault.unmatchedClose.message = "mismatched parenthesis" ∧
      ∀ n, (Fault.longNumeral n).kind.label = "ValueError") := by
  have hskip : ∀ n, s.skip (n + 1) = ofTokens (ts.drop (n + 1)) := hs ▸ skip_eq_ofTokens hbuffer
  refine ⟨fun hshort => ⟨?_, ?_, ?_, ?_⟩, ?_, rfl, rfl, rfl, rfl, fun _ => rfl⟩
  · rintro rfl
    exact parseFrom_nil hs
  · rintro r rfl
    exact (parseFrom_unmatched hs).trans (congrArg _ (hskip 0))
  · intro m hhead hend
    obtain ⟨v, hparse, hpieces⟩ := parseFrom_of_formEnd [] hs hend hnests hshort
      (fun _ => hhead)
    obtain ⟨k, hk⟩ : ∃ k, m = k + 1 := Nat.exists_eq_add_of_le' hend.1.1
    rw [hk, hskip, ← hk] at hparse
    have hspells : Spells (ts.take m) v := by
      simpa [Spells, openPieces] using hpieces.symm
    exact ⟨v, hparse, hspells, fun w hw => hw.unique hspells⟩
  · intro hend
    exact parseFrom_of_no_formEnd [] hs hend hnests hshort
  · intro j t n hj ht hlong hfirst
    exact (parseFrom_of_overlong [] hs hj ht hlong hfirst hnests).trans (congrArg _ (hskip j))

/-- A nested form with a token after it, where `1x` is read as an integer. -/
private def nestedTokens : List String :=
  ["(", "f", "(", ")", "1x", ")", "g"]

/-- A list with an integer of `n` digits in it, which is never closed. -/
private def longTokens (n : Nat) : List String :=
  ["(", String.ofList (List.replicate n '7'), "g"]

theorem parse_exact_nested :
    (Nests 2 0 nestedTokens ∧ FormEnd 0 nestedTokens 6 ∧
      ∃ v, (ofTokens nestedTokens).parse 2 = (.value v, ofTokens ["g"]) ∧
        Spells (nestedTokens.take 6) v ∧ ∀ w, Spells (nestedTokens.take 6) w → w = v) ∧
    (Nests 3 0 (longTokens 4301) ∧
      (ofTokens (longTokens 4301)).parse 3 = (.fault (.longNumeral 4301), ofTokens ["g"])) := by
  have hnests : Nests 2 0 nestedTokens := by
    have hall : ∀ k < 7, nestedTokens[k]? ≠ some ")" → 0 + depth nestedTokens k < 2 := by decide
    exact fun k t hk ht hne => hall k hk.1 (by simpa [ht] using hne)
  have hend : FormEnd 0 nestedTokens 6 := by
    have hall : ∀ k < 6, 1 ≤ k → 0 < 0 + depth nestedTokens k := by decide
    refine ⟨by decide, fun k hk => ?_⟩
    by_contra hlt
    have := hall k (by omega) hk.1
    have := hk.2.2
    omega
  have hshort : ∀ k t n, InForm 0 nestedTokens k → nestedTokens[k]? = some t →
      ¬ Overlong t n := by
    have hall : ∀ t ∈ nestedTokens, t.toList.length ≤ 4300 := by decide
    exact fun k t n _ ht hlong => Nat.not_lt.2 (hall t (List.mem_of_getElem? ht)) hlong.length_lt
  have hnests' : Nests 3 0 (longTokens 4301) := nests_of_length_le (Nat.le_refl 3)
  have hlong : ∀ n, 4300 < n → Overlong (String.ofList (List.replicate n '7')) n := by
    refine fun n hn => ⟨⟨[], List.replicate n '7', [], by simp, .inl rfl, ?_, by simp, by simp⟩, hn⟩
    intro c hc
    rw [List.eq_of_mem_replicate hc]
    decide
  refine ⟨⟨hnests, hend, ?_⟩, hnests', ?_⟩
  · have hexact := parse_exact 2 (ofTokens nestedTokens) nestedTokens (Nat.zero_le 1) rfl hnests
    exact (hexact.1 hshort).2.2.1 6 (by decide) hend
  · have hin : InForm 0 (longTokens 4301) 1 := inForm_succ.2 ⟨by decide, inForm_zero _ _ _⟩
    have hexact := parse_exact 3 (ofTokens (longTokens 4301)) _ (Nat.zero_le 1) rfl hnests'
    refine hexact.2.1 1 _ 4301 hin rfl (hlong 4301 (by decide)) ?_
    intro i u n hi hu
    obtain rfl : i = 0 := by omega
    exact not_overlong_paren (.inl (Option.some.inj hu).symm) n

end TokenStream

end Lisplet
