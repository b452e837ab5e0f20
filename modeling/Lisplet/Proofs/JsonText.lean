import Lisplet.Json.Decode
import Lisplet.Proofs.Utf8
import Mathlib.Data.List.Forall2

/-!
# Texts of JSON objects

What a JSON text may look like, told without the decoder: a string is spelled with plain characters,
with escapes of one letter, and with escapes of one or two 16-bit units; between lexemes there may be
spaces. Any text that spells an object of strings and constants in this way is decoded as that object.
There are two ways to write strings: with ASCII only, or with all characters as they are but quotes,
backslashes and controls. What is written is read back, except that two halves of a pair that were apart
come back as one character; texts have no such halves.

Main definitions: `StringBody`, `Lexed`, `objectLexemes`, `escapeRaw`. Main statements:
`StringBody.scan`, `Lexed.complete`, `Lexed.decode_object`, `lexed_write_object`.
-/

namespace Lisplet.Json

/-! ## Spellings of strings -/

/-- The character is the hexadecimal digit of the number, in lower or upper case. -/
def IsHexDigit (n : Nat) (c : Char) : Prop :=
  "0123456789abcdef".toList[n]? = some c ∨ "0123456789ABCDEF".toList[n]? = some c

/-- The characters are four hexadecimal digits, and this is their number. -/
def IsUnit (n : Nat) (ds : List Char) : Prop :=
  ∃ k₁ k₂ k₃ k₄ d₁ d₂ d₃ d₄, ds = [d₁, d₂, d₃, d₄] ∧
    IsHexDigit k₁ d₁ ∧ IsHexDigit k₂ d₂ ∧ IsHexDigit k₃ d₃ ∧ IsHexDigit k₄ d₄ ∧
    n = k₁ * 0x1000 + k₂ * 0x100 + k₃ * 0x10 + k₄

/-- The letters of short escapes, and what they stand for. -/
def shortEscapes : List (Char × Char) :=
  [('"', '"'), ('\\', '\\'), ('/', '/'), ('b', '\x08'), ('f', '\x0c'), ('n', '\n'), ('r', '\r'),
    ('t', '\t')]

/-- What stands between the quotes of a string spells these letters. -/
inductive StringBody : List Char → Letters → Prop where
  | nil : StringBody [] []
  /-- A character that is no quote, no backslash and no control stands for itself. -/
  | plain {c : Char} {cs : List Char} {s : Letters} : c ≠ '"' → c ≠ '\\' → 0x20 ≤ c.toNat →
      StringBody cs s → StringBody (c :: cs) (.char c :: s)
  | short {e c : Char} {cs : List Char} {s : Letters} : (e, c) ∈ shortEscapes → StringBody cs s →
      StringBody ('\\' :: e :: cs) (.char c :: s)
  /-- A character of one 16-bit unit. -/
  | unit {c : Char} {ds cs : List Char} {s : Letters} : IsUnit c.toNat ds → StringBody cs s →
      StringBody ('\\' :: 'u' :: ds ++ cs) (.char c :: s)
  /-- A character of two 16-bit units. -/
  | pair {c : Char} {high low : Nat} {ds es cs : List Char} {s : Letters} : IsUnit high ds →
      IsUnit low es → 0xD800 ≤ high → high ≤ 0xDBFF → 0xDC00 ≤ low → low ≤ 0xDFFF →
      c.toNat = 0x10000 + (high - 0xD800) * 0x400 + (low - 0xDC00) → StringBody cs s →
      StringBody ('\\' :: 'u' :: ds ++ ('\\' :: 'u' :: es ++ cs)) (.char c :: s)
  /-- Half of a pair, where the other half does not come next. -/
  | half {n : Fin 0x800} {ds cs : List Char} {s : Letters} : IsUnit (0xD800 + n) ds →
      (n.val < 0x400 → ∀ l, s.head? = some (.half l) → l.val < 0x400) → StringBody cs s →
      StringBody ('\\' :: 'u' :: ds ++ cs) (.half n :: s)

theorem hexValue?_of_isHexDigit {n : Nat} {c : Char} (h : IsHexDigit n c) : hexValue? c = some n := by
  have hlower : ∀ i : Fin 16, hexValue? ("0123456789abcdef".toList.get i) = some i.val := by decide
  have hupper : ∀ i : Fin 16, hexValue? ("0123456789ABCDEF".toList.get i) = some i.val := by decide
  rcases h with h | h
  · obtain ⟨hn, rfl⟩ := List.getElem?_eq_some_iff.1 h
    exact hlower ⟨n, hn⟩
  · obtain ⟨hn, rfl⟩ := List.getElem?_eq_some_iff.1 h
    exact hupper ⟨n, hn⟩

theorem unit?_of_isUnit {n : Nat} {ds : List Char} (h : IsUnit n ds) :
    ∃ d₁ d₂ d₃ d₄, ds = [d₁, d₂, d₃, d₄] ∧ unit? d₁ d₂ d₃ d₄ = some n := by
  obtain ⟨k₁, k₂, k₃, k₄, d₁, d₂, d₃, d₄, rfl, h₁, h₂, h₃, h₄, rfl⟩ := h
  refine ⟨d₁, d₂, d₃, d₄, rfl, ?_⟩
  simp only [unit?, hexValue?_of_isHexDigit h₁, hexValue?_of_isHexDigit h₂,
    hexValue?_of_isHexDigit h₃, hexValue?_of_isHexDigit h₄]
  show some _ = some _
  rw [Option.some.injEq]
  omega

/-- An escape by a unit takes six characters. -/
theorem IsUnit.length_escape {n : Nat} {ds : List Char} (h : IsUnit n ds) (cs : List Char) :
    ('\\' :: 'u' :: ds ++ cs).length = cs.length + 6 := by
  obtain ⟨_, _, _, _, _, _, _, _, rfl, -⟩ := h
  rfl

theorem escapeOf?_of_mem {e c : Char} (h : (e, c) ∈ shortEscapes) : escapeOf? e = some c := by
  have hall : ∀ p ∈ shortEscapes, escapeOf? p.1 = some p.2 := by decide
  exact hall (e, c) h

/-! ## Scanning strings -/

section Scan

variable {start place n : Nat} {c e : Char} {r ds : List Char}

theorem scanLetters_quote : scanLetters start place ('"' :: r) = .ok ([], place + 1) := by
  rw [scanLetters.eq_def]
  simp

theorem scanLetters_plain (hquote : c ≠ '"') (hslash : c ≠ '\\') (hcontrol : 0x20 ≤ c.toNat) :
    scanLetters start place (c :: r) = prepend (.char c) (scanLetters start (place + 1) r) := by
  rw [scanLetters.eq_def]
  simp only [hquote, hslash, if_false]
  rw [if_neg (Nat.not_lt.2 hcontrol)]

theorem scanLetters_short (h : escapeOf? e = some c) :
    scanLetters start place ('\\' :: e :: r) =
      prepend (.char c) (scanLetters start (place + 2) r) := by
  have hnone : escapeOf? 'u' = none := by decide
  have hu : e ≠ 'u' := by
    intro heq
    rw [heq, hnone] at h
    cases h
  rw [scanLetters.eq_def]
  simp [hu, h]

/-- An escape by a unit is taken only if something comes behind its digits. -/
theorem scanLetters_unit (h : IsUnit n ds) (hr : r ≠ []) :
    scanLetters start place ('\\' :: 'u' :: ds ++ r) =
      prepend (unitLetter n) (scanLetters start (place + 6) r) := by
  obtain ⟨d₁, d₂, d₃, d₄, rfl, hunit⟩ := unit?_of_isUnit h
  rw [scanLetters.eq_def]
  simp [hunit, hr]

end Scan

theorem prepend_ok (x : Letter) (xs : Letters) (place : Nat) :
    prepend x (.ok (xs, place)) = .ok (x :: xs, place) :=
  rfl

/-- No character has the number of half a pair. -/
theorem unitLetter_toNat (c : Char) : unitLetter c.toNat = .char c := by
  have hvalid := Text.Utf8.toNat_valid c
  rw [unitLetter, dif_neg (by omega), Char.ofNat_toNat]

theorem unitLetter_half (n : Fin 0x800) : unitLetter (0xD800 + n) = .half n := by
  rw [unitLetter, dif_pos (by omega)]
  simp only [Letter.half.injEq, Fin.ext_iff]
  omega

/-! ## Joining pairs -/

theorem isPair_iff {h l : Fin 0x800} : isPair h l = true ↔ h.val < 0x400 ∧ 0x400 ≤ l.val := by
  rw [isPair, Bool.and_eq_true, decide_eq_true_eq, decide_eq_true_eq]

/-- What is joined begins with a half only if that half came first. -/
theorem eq_of_head_joinPairs {l n : Fin 0x800} {r : Letters}
    (h : (joinPairs (.half l :: r)).head? = some (.half n)) : l = n := by
  unfold joinPairs at h
  split at h
  · next heq => cases heq
  · next heq => cases heq
  · next heq =>
    cases heq
    split at h
    · simp at h
    · simpa using h
  · next heq =>
    cases heq
    simpa using h

/-- A second half begins no pair. -/
theorem joinPairs_low {l : Fin 0x800} (hl : 0x400 ≤ l.val) (r : Letters) :
    joinPairs (.half l :: r) = .half l :: joinPairs r := by
  cases r with
  | nil => simp [joinPairs]
  | cons x r =>
    cases x with
    | char c => simp [joinPairs]
    | half n =>
      have hpair : ¬ isPair l n = true := by
        rw [isPair_iff]
        omega
      rw [joinPairs, if_neg hpair]

/-- A half stays if the letters behind it, joined, do not begin with the other half. -/
theorem joinPairs_half {n : Fin 0x800} {s : Letters}
    (h : n.val < 0x400 → ∀ l, (joinPairs s).head? = some (.half l) → l.val < 0x400) :
    joinPairs (.half n :: s) = .half n :: joinPairs s := by
  cases s with
  | nil => simp [joinPairs]
  | cons x r =>
    cases x with
    | char c => simp [joinPairs]
    | half l =>
      have hpair : ¬ isPair n l = true := by
        rw [isPair_iff]
        rintro ⟨hn, hl⟩
        have hlow := h hn l (by rw [joinPairs_low hl, List.head?_cons])
        omega
      rw [joinPairs, if_neg hpair]

/-- Characters are left as they are. -/
@[simp]
theorem joinPairs_lettersOf (s : String) : joinPairs (lettersOf s) = lettersOf s := by
  unfold lettersOf
  induction s.toList with
  | nil => rfl
  | cons c cs ih => rw [List.map_cons, joinPairs, ih]

/-- The text between quotes is scanned as the letters that it spells. -/
theorem StringBody.scan {cs : List Char} {s : Letters} (h : StringBody cs s) (start place : Nat)
    (r : List Char) :
    ∃ xs, scanLetters start place (cs ++ '"' :: r) = .ok (xs, place + cs.length + 1) ∧
      joinPairs xs = s := by
  -- Along the spelling: each rule passes its own number of characters and adds one letter, or two for a
  -- pair. The closing quote is what comes behind the last escape.
  induction h generalizing place with
  | nil => exact ⟨[], scanLetters_quote, rfl⟩
  | @plain c cs s hquote hslash hcontrol _ ih =>
    obtain ⟨xs, hxs, rfl⟩ := ih (place + 1)
    refine ⟨.char c :: xs, ?_, by simp [joinPairs]⟩
    rw [List.cons_append, scanLetters_plain hquote hslash hcontrol, hxs, prepend_ok, List.length_cons]
    congr 3
    omega
  | @short e c cs s hshort _ ih =>
    obtain ⟨xs, hxs, rfl⟩ := ih (place + 2)
    refine ⟨.char c :: xs, ?_, by simp [joinPairs]⟩
    rw [List.cons_append, List.cons_append, scanLetters_short (escapeOf?_of_mem hshort), hxs, prepend_ok,
      List.length_cons, List.length_cons]
    congr 3
    omega
  | @unit c ds cs s hunit _ ih =>
    obtain ⟨xs, hxs, rfl⟩ := ih (place + 6)
    refine ⟨.char c :: xs, ?_, by simp [joinPairs]⟩
    rw [List.append_assoc, scanLetters_unit hunit (by simp), hxs, prepend_ok, unitLetter_toNat,
      hunit.length_escape]
    congr 3
    omega
  | @pair c high low ds es cs s hhigh hlow h₁ h₂ h₃ h₄ hc _ ih =>
    obtain ⟨xs, hxs, rfl⟩ := ih (place + 12)
    obtain ⟨h, rfl⟩ : ∃ h : Fin 0x800, high = 0xD800 + h := ⟨⟨high - 0xD800, by omega⟩, by simp; omega⟩
    obtain ⟨l, rfl⟩ : ∃ l : Fin 0x800, low = 0xD800 + l := ⟨⟨low - 0xD800, by omega⟩, by simp; omega⟩
    refine ⟨.half h :: .half l :: xs, ?_, ?_⟩
    · rw [List.append_assoc, scanLetters_unit hhigh (by simp), List.append_assoc,
        scanLetters_unit hlow (by simp), hxs, prepend_ok, prepend_ok, unitLetter_half, unitLetter_half,
        hhigh.length_escape, hlow.length_escape]
      congr 3
      omega
    · have hpair : isPair h l = true := isPair_iff.2 (by omega)
      have hnumber : 0x10000 + h.val * 0x400 + (l.val - 0x400) = c.toNat := by omega
      rw [joinPairs, if_pos hpair, pairChar, hnumber, Char.ofNat_toNat]
  | @half n ds cs s hunit hnext _ ih =>
    obtain ⟨xs, hxs, rfl⟩ := ih (place + 6)
    refine ⟨.half n :: xs, ?_, joinPairs_half hnext⟩
    rw [List.append_assoc, scanLetters_unit hunit (by simp), hxs, prepend_ok, unitLetter_half,
      hunit.length_escape]
    congr 3
    omega

/-! ## Spellings of lexemes -/

/-- The characters that are lexemes by themselves. -/
def marks : List (Char × Lexeme) :=
  [('\x7b', .beginObject), ('\x7d', .endObject), ('[', .beginArray), (']', .endArray), (',', .comma),
    (':', .colon)]

/-- The constants that are written as names. -/
def constantNames : List (String × Json) :=
  [("null", .null), ("true", .bool true), ("false", .bool false)]

/-- The text is made of these lexemes, with spaces between them. -/
inductive Lexed : List Char → List Lexeme → Prop where
  | nil : Lexed [] []
  | space {c : Char} {cs : List Char} {ls : List Lexeme} : c ∈ [' ', '\t', '\n', '\r'] → Lexed cs ls →
      Lexed (c :: cs) ls
  | mark {c : Char} {l : Lexeme} {cs : List Char} {ls : List Lexeme} : (c, l) ∈ marks → Lexed cs ls →
      Lexed (c :: cs) (l :: ls)
  | string {body cs : List Char} {s : Letters} {ls : List Lexeme} : StringBody body s → Lexed cs ls →
      Lexed ('"' :: body ++ '"' :: cs) (.string s :: ls)
  | constant {name : String} {v : Json} {cs : List Char} {ls : List Lexeme} :
      (name, v) ∈ constantNames → Lexed cs ls → Lexed (name.toList ++ cs) (.scalar v :: ls)

theorem Lexed.append {cs ds : List Char} {ls ms : List Lexeme} (h : Lexed cs ls) (h' : Lexed ds ms) :
    Lexed (cs ++ ds) (ls ++ ms) := by
  induction h with
  | nil => exact h'
  | space hc _ ih => exact .space hc ih
  | mark hc _ ih => exact .mark hc ih
  | string hbody _ ih =>
    rw [List.append_assoc, List.cons_append]
    exact .string hbody ih
  | constant hname _ ih =>
    rw [List.append_assoc]
    exact .constant hname ih

/-! ## Lexing -/

/-- The lexemes, if lexing comes to the end of the text. -/
def Lexemes.complete? : Lexemes → Option (List Lexeme)
  | .cons _ l rest => rest.complete?.map (l :: ·)
  | .stop _ .endOfText => some []
  | .stop _ _ => none

theorem lexemesFrom_string {cs : List Char} {s : Letters} (h : StringBody cs s) (place : Nat)
    (r : List Char) : ∃ after, lexemesFrom place ('"' :: cs ++ '"' :: r) =
      .cons place (.string s) (lexemesFrom after r) := by
  obtain ⟨xs, hscan, rfl⟩ := h.scan place (place + 1) r
  have hstring : scanString place (cs ++ '"' :: r) =
      .ok (joinPairs xs, place + 1 + cs.length + 1) := by
    rw [scanString, hscan]
    rfl
  have hcount : place + 1 + cs.length + 1 - place - 1 = (cs ++ ['"']).length := by
    simp only [List.length_append, List.length_singleton]
    omega
  have hdrop : (cs ++ '"' :: r).drop (place + 1 + cs.length + 1 - place - 1) = r := by
    have hsplit : cs ++ '"' :: r = (cs ++ ['"']) ++ r := by simp
    rw [hcount, hsplit]
    exact List.drop_left
  refine ⟨place + 1 + cs.length + 1, ?_⟩
  rw [List.cons_append, lexemesFrom, if_neg (by decide), show mark? '"' = none by decide]
  simp only [if_true, hstring, hdrop]

theorem lexemesFrom_scalar {c : Char} {r : List Char} {v : Json} {n : Nat} (hspace : isSpace c = false)
    (hmark : mark? c = none) (hquote : c ≠ '"') (hscalar : scalar? (c :: r) = some (.ok v, n))
    (place : Nat) : lexemesFrom place (c :: r) =
      .cons place (.scalar v) (lexemesFrom (place + n) (r.drop (n - 1))) := by
  rw [lexemesFrom, hspace, hmark]
  simp [hquote, hscalar]

theorem lexemesFrom_constant {name : String} {v : Json} (h : (name, v) ∈ constantNames) (place : Nat)
    (r : List Char) : lexemesFrom place (name.toList ++ r) =
      .cons place (.scalar v) (lexemesFrom (place + name.length) r) := by
  simp only [constantNames, List.mem_cons, Prod.mk.injEq, List.not_mem_nil, or_false] at h
  rcases h with ⟨rfl, rfl⟩ | ⟨rfl, rfl⟩ | ⟨rfl, rfl⟩
  · exact lexemesFrom_scalar (c := 'n') (r := 'u' :: 'l' :: 'l' :: r) rfl rfl (by decide) rfl place
  · exact lexemesFrom_scalar (c := 't') (r := 'r' :: 'u' :: 'e' :: r) rfl rfl (by decide) rfl place
  · exact lexemesFrom_scalar (c := 'f') (r := 'a' :: 'l' :: 's' :: 'e' :: r) rfl rfl (by decide) rfl
      place

/-- A text that is made of lexemes is cut into them. -/
theorem Lexed.complete {cs : List Char} {ls : List Lexeme} (h : Lexed cs ls) (place : Nat) :
    (lexemesFrom place cs).complete? = some ls := by
  induction h generalizing place with
  | nil =>
    rw [lexemesFrom]
    rfl
  | @space c cs ls hc _ ih =>
    have hspace : isSpace c = true := by
      simp only [List.mem_cons, List.not_mem_nil, or_false] at hc
      rcases hc with rfl | rfl | rfl | rfl <;> rfl
    rw [lexemesFrom, if_pos hspace]
    exact ih _
  | @mark c l cs ls hc _ ih =>
    have hmark : isSpace c = false ∧ mark? c = some l := by
      simp only [marks, List.mem_cons, Prod.mk.injEq, List.not_mem_nil, or_false] at hc
      rcases hc with ⟨rfl, rfl⟩ | ⟨rfl, rfl⟩ | ⟨rfl, rfl⟩ | ⟨rfl, rfl⟩ | ⟨rfl, rfl⟩ | ⟨rfl, rfl⟩ <;>
        exact ⟨rfl, rfl⟩
    rw [lexemesFrom, hmark.1, hmark.2]
    simp [Lexemes.complete?, ih]
  | string hbody _ ih =>
    obtain ⟨after, hafter⟩ := lexemesFrom_string hbody place _
    rw [hafter]
    simp [Lexemes.complete?, ih]
  | constant hname _ ih =>
    rw [lexemesFrom_constant hname]
    simp [Lexemes.complete?, ih]

/-! ## Objects -/

/-- The document that a list of lexemes completes. -/
def assembleAll (limit : Nat) (c : Config) : List Lexeme → Except DecodeFault Json
  | [] => finish c 0 .endOfText
  | l :: ls =>
    match step limit c 0 l with
    | .error f => .error f
    | .ok c' => assembleAll limit c' ls

/-- Places matter only where something is wrong. -/
theorem step_place {limit : Nat} {c c' : Config} {l : Lexeme} {place : Nat}
    (h : step limit c 0 l = .ok c') : step limit c place l = .ok c' := by
  obtain ⟨state, containers⟩ := c
  cases state with
  | after v =>
    -- What may follow a value depends on the innermost container, and nothing may outside of all.
    cases containers with
    | nil => cases h
    | cons k ks => cases k <;> cases l <;> first | exact h | cases h
  | _ => cases l <;> first | exact h | cases h

theorem finish_place {c : Config} {v : Json} {place : Nat} (h : finish c 0 .endOfText = .ok v) :
    finish c place .endOfText = .ok v := by
  obtain ⟨state, containers⟩ := c
  cases state with
  | after w => cases containers <;> first | exact h | cases h
  | _ => cases h

theorem assemble_of_complete {limit : Nat} {c : Config} {lexemes : Lexemes} {ls : List Lexeme}
    {v : Json} (h : lexemes.complete? = some ls) (hv : assembleAll limit c ls = .ok v) :
    assemble limit c lexemes = .ok v := by
  induction lexemes generalizing c ls with
  | stop place why =>
    cases why with
    | endOfText =>
      cases h
      exact finish_place hv
    | _ => cases h
  | cons place l rest ih =>
    obtain ⟨ms, hms, rfl⟩ := Option.map_eq_some_iff.1 h
    rw [assembleAll] at hv
    rw [assemble]
    cases hstep : step limit c 0 l with
    | error f =>
      rw [hstep] at hv
      cases hv
    | ok c' =>
      rw [hstep] at hv
      rw [step_place hstep]
      exact ih hms hv

/-- The lexeme of a string or a constant. -/
def atomLexeme : Json → Lexeme
  | .str s => .string s
  | v => .scalar v

/-- The lexemes of a field. -/
def fieldLexemes (p : Letters × Json) : List Lexeme :=
  [.string p.1, .colon, atomLexeme p.2]

/-- The lexemes of an object of strings and constants. -/
def objectLexemes (fields : List (Letters × Json)) : List Lexeme :=
  .beginObject :: List.intercalate [.comma] (fields.map fieldLexemes) ++ [.endObject]

theorem setField_of_new {name : Letters} {v : Json} {fields : List (Letters × Json)}
    (h : name ∉ fields.map Prod.fst) : setField name v fields = fields ++ [(name, v)] := by
  induction fields with
  | nil => rfl
  | cons p fields ih =>
    simp only [List.map_cons, List.mem_cons, not_or] at h
    rw [setField, if_neg (Ne.symm h.1), ih h.2]
    rfl

theorem fst_not_mem_of_nodup {done fields : List (Letters × Json)} {p : Letters × Json}
    (h : ((done ++ p :: fields).map Prod.fst).Nodup) : p.1 ∉ done.map Prod.fst := by
  rw [List.map_append, List.map_cons, List.nodup_append] at h
  intro hmem
  exact h.2.2 p.1 hmem p.1 (List.mem_cons_self ..) rfl

theorem assembleAll_field {limit : Nat} {state : State} {done : List (Letters × Json)}
    {p : Letters × Json}
    (hstate : step limit ⟨state, []⟩ 0 (.string p.1) = .ok ⟨.colon done p.1, []⟩) (l : Lexeme)
    (ls : List Lexeme) :
    assembleAll limit ⟨state, []⟩ (fieldLexemes p ++ l :: ls) =
      assembleAll limit ⟨.after p.2, [.object done p.1]⟩ (l :: ls) := by
  have hvalue : step limit ⟨.value, [.object done p.1]⟩ 0 (atomLexeme p.2) =
      .ok ⟨.after p.2, [.object done p.1]⟩ := by
    cases p.2 <;> rfl
  simp only [fieldLexemes, List.cons_append, List.nil_append]
  rw [assembleAll, hstate]
  show assembleAll limit ⟨.value, [.object done p.1]⟩ _ = _
  rw [assembleAll, hvalue]

/-- From where a name is to come, the fields of an object are put behind those that are there. -/
theorem assembleAll_fields {limit : Nat} {state : State} {done fields : List (Letters × Json)}
    {p : Letters × Json} (hnodup : ((done ++ p :: fields).map Prod.fst).Nodup)
    (hstate : ∀ name, step limit ⟨state, []⟩ 0 (.string name) = .ok ⟨.colon done name, []⟩) :
    assembleAll limit ⟨state, []⟩
        (List.intercalate [.comma] ((p :: fields).map fieldLexemes) ++ [.endObject]) =
      .ok (.obj (done ++ p :: fields)) := by
  induction fields generalizing state done p with
  | nil =>
    rw [List.map_singleton, List.intercalate_singleton, assembleAll_field (hstate p.1)]
    show Except.ok (Json.obj (setField p.1 p.2 done)) = _
    rw [setField_of_new (fst_not_mem_of_nodup hnodup)]
  | cons q fields ih =>
    have hlexemes : List.intercalate [.comma] ((p :: q :: fields).map fieldLexemes) ++ [.endObject] =
        fieldLexemes p ++ .comma ::
          (List.intercalate [.comma] ((q :: fields).map fieldLexemes) ++ [.endObject]) := by
      simp [List.intercalate_cons_cons]
    have hdone : done ++ p :: q :: fields = (done ++ [p]) ++ q :: fields := by simp
    rw [hlexemes, assembleAll_field (hstate p.1)]
    show assembleAll limit ⟨.name (setField p.1 p.2 done), []⟩ _ = _
    rw [setField_of_new (fst_not_mem_of_nodup hnodup), hdone]
    rw [hdone] at hnodup
    exact ih hnodup fun _ => rfl

theorem assembleAll_object {limit : Nat} (hlimit : 0 < limit) {fields : List (Letters × Json)}
    (hnodup : (fields.map Prod.fst).Nodup) :
    assembleAll limit ⟨.value, []⟩ (objectLexemes fields) = .ok (.obj fields) := by
  have hbegin : step limit ⟨.value, []⟩ 0 .beginObject = .ok ⟨.firstName, []⟩ := by
    show (if 0 < limit then _ else _) = _
    rw [if_pos hlimit]
  rw [objectLexemes, List.cons_append, assembleAll, hbegin]
  cases fields with
  | nil => rfl
  | cons p fields =>
    have hfields : ([] ++ p :: fields).map Prod.fst |>.Nodup := hnodup
    exact assembleAll_fields hfields fun _ => rfl

/-- No lexeme begins with a byte-order mark. -/
theorem Lexed.head_ne {cs : List Char} {ls : List Lexeme} (h : Lexed cs ls) :
    cs.head? ≠ some '\ufeff' := by
  cases h with
  | nil => simp
  | space hc _ =>
    intro heq
    rw [List.head?_cons, Option.some.injEq] at heq
    rw [heq] at hc
    exact absurd hc (by decide)
  | mark hc _ =>
    intro heq
    rw [List.head?_cons, Option.some.injEq] at heq
    rw [heq] at hc
    simp [marks] at hc
  | string _ _ => simp
  | constant hname _ =>
    simp only [constantNames, List.mem_cons, Prod.mk.injEq, List.not_mem_nil, or_false] at hname
    rcases hname with ⟨rfl, rfl⟩ | ⟨rfl, rfl⟩ | ⟨rfl, rfl⟩ <;> simp

/-- A text that spells an object of strings and constants is decoded as that object. -/
theorem Lexed.decode_object {cs : List Char} {fields : List (Letters × Json)} {limit : Nat}
    (h : Lexed cs (objectLexemes fields)) (hnodup : (fields.map Prod.fst).Nodup)
    (hlimit : 0 < limit) : decode limit cs = .ok (.obj fields) := by
  rw [decode, if_neg h.head_ne]
  exact assemble_of_complete (h.complete 0) (assembleAll_object hlimit hnodup)

/-! ## Writers -/

theorem hexDigits_four {n : Nat} (h : n < 0x10000) : Text.hexDigits 4 n =
    [(n / 0x1000).digitChar, (n / 0x100 % 16).digitChar, (n / 0x10 % 16).digitChar,
      (n % 16).digitChar] := by
  have hdigit : ∀ k, 16 ≤ k → Nat.toDigits 16 k = Nat.toDigits 16 (k / 16) ++ [(k % 16).digitChar] :=
    fun k hk => Nat.toDigits_of_base_le (by decide) hk
  have hlast : ∀ k, k < 16 → Nat.toDigits 16 k = [k.digitChar] := fun k hk => Nat.toDigits_of_lt_base hk
  -- A number has one digit more each time it passes a power of the base; zeros fill up the rest.
  by_cases h₁ : n < 0x10
  · have hzero : n / 0x1000 = 0 ∧ n / 0x100 % 16 = 0 ∧ n / 0x10 % 16 = 0 ∧ n % 16 = n := by omega
    rw [Text.hexDigits, hlast n h₁, hzero.1, hzero.2.1, hzero.2.2.1, hzero.2.2.2]
    rfl
  by_cases h₂ : n < 0x100
  · have hzero : n / 0x1000 = 0 ∧ n / 0x100 % 16 = 0 ∧ n / 0x10 % 16 = n / 16 := by omega
    rw [Text.hexDigits, hdigit n (by omega), hlast (n / 16) (by omega), hzero.1, hzero.2.1, hzero.2.2]
    rfl
  by_cases h₃ : n < 0x1000
  · have hzero : n / 0x1000 = 0 ∧ n / 0x100 % 16 = n / 16 / 16 := by omega
    rw [Text.hexDigits, hdigit n (by omega), hdigit (n / 16) (by omega),
      hlast (n / 16 / 16) (by omega), hzero.1, hzero.2]
    rfl
  · have hdiv : n / 16 / 16 = n / 0x100 ∧ n / 0x100 / 16 = n / 0x1000 := by omega
    rw [Text.hexDigits, hdigit n (by omega), hdigit (n / 16) (by omega), hdiv.1,
      hdigit (n / 0x100) (by omega), hdiv.2, hlast (n / 0x1000) (by omega)]
    rfl

theorem isHexDigit_digitChar {k : Nat} (h : k < 16) : IsHexDigit k k.digitChar := by
  have hall : ∀ i : Fin 16, "0123456789abcdef".toList[i.val]? = some i.val.digitChar := by decide
  exact Or.inl (hall ⟨k, h⟩)

/-- The hexadecimal digits of a 16-bit unit are its digits. -/
theorem isUnit_hexDigits {n : Nat} (h : n < 0x10000) : IsUnit n (Text.hexDigits 4 n) :=
  ⟨n / 0x1000, n / 0x100 % 16, n / 0x10 % 16, n % 16, _, _, _, _, hexDigits_four h,
    isHexDigit_digitChar (by omega), isHexDigit_digitChar (by omega),
    isHexDigit_digitChar (by omega), isHexDigit_digitChar (by omega), by omega⟩

/-- How a character is escaped: by a letter, not at all, by one unit or by two. -/
theorem escapeChar_cases (c : Char) :
    (∃ e, (e, c) ∈ shortEscapes ∧ escapeChar c = ['\\', e]) ∨
      (c ≠ '"' ∧ c ≠ '\\' ∧ 0x20 ≤ c.toNat ∧ c.toNat < 0x7F ∧ escapeChar c = [c]) ∨
      (c.toNat < 0x10000 ∧ escapeChar c = unitEscape c.toNat) ∨
      (0x10000 ≤ c.toNat ∧ escapeChar c =
        unitEscape (0xD800 + (c.toNat - 0x10000) / 0x400) ++
          unitEscape (0xDC00 + (c.toNat - 0x10000) % 0x400)) := by
  by_cases hshort : c ∈ ['"', '\\', '\n', '\r', '\t', '\x08', '\x0c']
  · simp only [List.mem_cons, List.not_mem_nil, or_false] at hshort
    rcases hshort with rfl | rfl | rfl | rfl | rfl | rfl | rfl <;>
      exact Or.inl ⟨_, by decide, rfl⟩
  · simp only [List.mem_cons, List.not_mem_nil, or_false, not_or] at hshort
    obtain ⟨hquote, hslash, h₁, h₂, h₃, h₄, h₅⟩ := hshort
    unfold escapeChar
    dsimp only
    rw [if_neg hquote, if_neg hslash, if_neg h₁, if_neg h₂, if_neg h₃, if_neg h₄, if_neg h₅]
    split
    · next hprintable =>
      rw [Bool.and_eq_true, decide_eq_true_eq, decide_eq_true_eq] at hprintable
      exact Or.inr (Or.inl ⟨hquote, hslash, hprintable.1, hprintable.2, rfl⟩)
    split
    · next hsmall => exact Or.inr (Or.inr (Or.inl ⟨hsmall, rfl⟩))
    · next hlarge => exact Or.inr (Or.inr (Or.inr ⟨Nat.not_lt.1 hlarge, rfl⟩))

/-- The way to write characters spells each of them, whatever follows. -/
def Spelling (esc : Char → List Char) : Prop :=
  ∀ c cs s, StringBody cs s → StringBody (esc c ++ cs) (.char c :: s)

theorem escapeChar_spelling : Spelling escapeChar := by
  intro c cs s h
  have hvalid := Text.Utf8.toNat_valid c
  rcases escapeChar_cases c with ⟨e, hmem, heq⟩ | ⟨hquote, hslash, hlow, -, heq⟩ | ⟨hsmall, heq⟩ |
    ⟨hlarge, heq⟩
  · rw [heq]
    exact .short hmem h
  · rw [heq]
    exact .plain hquote hslash hlow h
  · rw [heq]
    exact .unit (isUnit_hexDigits hsmall) h
  · rw [heq, List.append_assoc]
    exact .pair (isUnit_hexDigits (by omega)) (isUnit_hexDigits (by omega)) (by omega) (by omega)
      (by omega) (by omega) (by omega) h

/-- A character as it is, unless it is a quote, a backslash or a control. -/
def escapeRaw (c : Char) : List Char :=
  if c.toNat < 0x7F then escapeChar c else [c]

theorem escapeRaw_spelling : Spelling escapeRaw := by
  intro c cs s h
  unfold escapeRaw
  split
  · exact escapeChar_spelling c cs s h
  · rename_i hlarge
    have hquote : c ≠ '"' := by
      intro heq
      exact hlarge (by rw [heq]; decide)
    have hslash : c ≠ '\\' := by
      intro heq
      exact hlarge (by rw [heq]; decide)
    exact .plain hquote hslash (by omega) h

/-- A string between quotes. -/
def quoteWith (esc : Char → List Char) (s : String) : List Char :=
  '"' :: s.toList.flatMap esc ++ ['"']

theorem Spelling.body {esc : Char → List Char} (h : Spelling esc) (s : List Char) :
    StringBody (s.flatMap esc) (s.map .char) := by
  induction s with
  | nil => exact .nil
  | cons c s ih => exact h c _ _ ih

theorem Spelling.lexed {esc : Char → List Char} (h : Spelling esc) (s : String) :
    Lexed (quoteWith esc s) [.string s] :=
  .string (h.body s.toList) .nil

/-- With all characters escaped that are not ASCII, a text is written as a string of a document is. -/
theorem quoteWith_escapeChar (s : String) : quoteWith escapeChar s = writeString s := by
  rw [quoteWith, writeString, lettersOf, List.flatMap_map]
  rfl

/-- The writer spells the letters of a string, with the halves that make a pair joined. -/
theorem stringBody_escapeLetter (s : Letters) : StringBody (s.flatMap escapeLetter) (joinPairs s) := by
  -- Along the joining of pairs; `joinPairs` of the rest begins with a half only if the rest does.
  fun_induction joinPairs s with
  | case1 => exact .nil
  | case2 c r ih => exact escapeChar_spelling c _ _ ih
  | case3 h l r hpair ih =>
    obtain ⟨hh, hl⟩ := isPair_iff.1 hpair
    have hvalid : (0x10000 + h.val * 0x400 + (l.val - 0x400)).isValidChar := by
      right
      omega
    have hc : (pairChar h l).toNat =
        0x10000 + (0xD800 + h.val - 0xD800) * 0x400 + (0xD800 + l.val - 0xDC00) := by
      rw [pairChar, Char.ofNat, dif_pos hvalid]
      show 0x10000 + h.val * 0x400 + (l.val - 0x400) = _
      omega
    rw [List.flatMap_cons, List.flatMap_cons]
    exact .pair (isUnit_hexDigits (by omega)) (isUnit_hexDigits (by omega)) (by omega) (by omega)
      (by omega) (by omega) hc ih
  | case4 h l r hpair ih =>
    refine .half (isUnit_hexDigits (by omega)) (fun hh n hn => ?_) ih
    obtain rfl := eq_of_head_joinPairs hn
    rw [isPair_iff, not_and, Nat.not_le] at hpair
    exact hpair hh
  | case5 h r hr ih =>
    refine .half (isUnit_hexDigits (by omega)) (fun _ n hn => ?_) ih
    cases r with
    | nil => simp [joinPairs] at hn
    | cons x r =>
      cases x with
      | char c => simp [joinPairs] at hn
      | half l => exact absurd rfl (hr l r)

theorem lexed_writeString (s : Letters) : Lexed (writeString s) [.string (joinPairs s)] :=
  .string (stringBody_escapeLetter s) .nil

/-- The text of an object is made of the lexemes of its fields if the texts of its fields are. -/
theorem lexed_object {texts : List (List Char)} {fields : List (Letters × Json)}
    (h : List.Forall₂ (fun t p => Lexed t (fieldLexemes p)) texts fields) :
    Lexed ('\x7b' :: commaSeparated texts ++ ['\x7d']) (objectLexemes fields) := by
  have hfields : Lexed (commaSeparated texts)
      (List.intercalate [.comma] (fields.map fieldLexemes)) := by
    induction h with
    | nil => exact .nil
    | cons hfirst hrest ih =>
      cases hrest with
      | nil => simpa [commaSeparated] using hfirst
      | cons hsecond hrest =>
        have hcomma : Lexed [',', ' '] [.comma] := .mark (by simp [marks]) (.space (by simp) .nil)
        have hboth := hfirst.append (hcomma.append ih)
        simpa [commaSeparated, List.intercalate_cons_cons] using hboth
  have hend : Lexed ['\x7d'] [.endObject] := .mark (by simp [marks]) .nil
  exact .mark (by simp [marks]) (hfields.append hend)

/-- The text of a field is made of its lexemes if the texts of its name and its value are. -/
theorem lexed_field {name value : List Char} {p : Letters × Json} (hname : Lexed name [.string p.1])
    (hvalue : Lexed value [atomLexeme p.2]) :
    Lexed (name ++ ':' :: ' ' :: value) (fieldLexemes p) := by
  have hcolon : Lexed (':' :: ' ' :: value) [.colon, atomLexeme p.2] :=
    .mark (by simp [marks]) (.space (by simp) hvalue)
  exact hname.append hcolon

/-- Strings and constants. -/
def IsAtom : Json → Prop
  | .null | .bool _ | .str _ => True
  | _ => False

/-- A string or constant as it is read back. -/
def joinAtom : Json → Json
  | .str s => .str (joinPairs s)
  | v => v

/-- A field as it is read back. -/
def joinField (p : Letters × Json) : Letters × Json :=
  (joinPairs p.1, joinAtom p.2)

theorem lexed_write_atom {v : Json} (h : IsAtom v) : Lexed v.write [atomLexeme (joinAtom v)] := by
  have hname : ∀ p ∈ constantNames, Lexed p.1.toList [.scalar p.2] := by
    intro p hp
    have hconstant := Lexed.constant hp .nil
    rwa [List.append_nil] at hconstant
  cases v with
  | null => exact hname ("null", .null) (by simp [constantNames])
  | bool b =>
    cases b with
    | false => exact hname ("false", .bool false) (by simp [constantNames])
    | true => exact hname ("true", .bool true) (by simp [constantNames])
  | str s => exact lexed_writeString s
  | _ => exact h.elim

/-- An object of strings and constants is written as the lexemes of its fields. -/
theorem lexed_write_object {fields : List (Letters × Json)} (h : ∀ p ∈ fields, IsAtom p.2) :
    Lexed (Json.obj fields).write (objectLexemes (fields.map joinField)) := by
  apply lexed_object
  induction fields with
  | nil => exact .nil
  | cons p fields ih =>
    obtain ⟨hp, hrest⟩ := List.forall_mem_cons.1 h
    have hfield : Lexed _ (fieldLexemes (joinField p)) :=
      lexed_field (lexed_writeString p.1) (lexed_write_atom hp)
    exact .cons hfield (ih hrest)

/-! ## Printable texts -/

/-- All characters are printable ASCII characters. -/
def Printable (cs : List Char) : Prop :=
  ∀ c ∈ cs, 0x20 ≤ c.toNat ∧ c.toNat < 0x7F

theorem Printable.append {cs ds : List Char} (hc : Printable cs) (hd : Printable ds) :
    Printable (cs ++ ds) := by
  intro c hmem
  rcases List.mem_append.1 hmem with hmem | hmem
  · exact hc c hmem
  · exact hd c hmem

theorem printable_unitEscape {n : Nat} (h : n < 0x10000) : Printable (unitEscape n) := by
  have hdigits : ∀ i : Fin 16, 0x20 ≤ i.val.digitChar.toNat ∧ i.val.digitChar.toNat < 0x7F := by decide
  have hdigit : ∀ k, k < 16 → 0x20 ≤ k.digitChar.toNat ∧ k.digitChar.toNat < 0x7F :=
    fun k hk => hdigits ⟨k, hk⟩
  rw [unitEscape, hexDigits_four h]
  intro c hc
  simp only [List.mem_cons, List.not_mem_nil, or_false] at hc
  rcases hc with rfl | rfl | rfl | rfl | rfl | rfl
  · decide
  · decide
  all_goals exact hdigit _ (by omega)

theorem printable_escapeChar (c : Char) : Printable (escapeChar c) := by
  have hvalid := Text.Utf8.toNat_valid c
  rcases escapeChar_cases c with ⟨e, hmem, heq⟩ | ⟨-, -, hlow, hhigh, heq⟩ | ⟨hsmall, heq⟩ |
    ⟨hlarge, heq⟩
  · rw [heq]
    have hall : ∀ p ∈ shortEscapes, Printable ['\\', p.1] := by simp [shortEscapes, Printable]
    exact hall (e, c) hmem
  · rw [heq]
    intro d hd
    rw [List.mem_singleton.1 hd]
    exact ⟨hlow, hhigh⟩
  · rw [heq]
    exact printable_unitEscape hsmall
  · rw [heq]
    exact (printable_unitEscape (by omega)).append (printable_unitEscape (by omega))

theorem printable_escapeLetter (x : Letter) : Printable (escapeLetter x) := by
  cases x with
  | char c => exact printable_escapeChar c
  | half n => exact printable_unitEscape (by omega)

theorem printable_writeString (s : Letters) : Printable (writeString s) := by
  have hquote : Printable ['"'] := by simp [Printable]
  have hbody : Printable (s.flatMap escapeLetter) := by
    intro c hc
    obtain ⟨x, -, hx⟩ := List.mem_flatMap.1 hc
    exact printable_escapeLetter x c hx
  exact (hquote.append hbody).append hquote

theorem printable_write_atom {v : Json} (h : IsAtom v) : Printable v.write := by
  cases v with
  | null => simp [write, Printable]
  | bool b => cases b <;> simp [write, Printable]
  | str s => exact printable_writeString s
  | _ => exact h.elim

theorem printable_commaSeparated {texts : List (List Char)} (h : ∀ t ∈ texts, Printable t) :
    Printable (commaSeparated texts) := by
  induction texts with
  | nil => simp [commaSeparated, Printable]
  | cons t texts ih =>
    obtain ⟨ht, hrest⟩ := List.forall_mem_cons.1 h
    cases texts with
    | nil => simpa [commaSeparated] using ht
    | cons u texts =>
      have hcomma : Printable [',', ' '] := by simp [Printable]
      have hboth := ht.append (hcomma.append (ih hrest))
      simpa [commaSeparated, List.intercalate_cons_cons] using hboth

theorem printable_write_object {fields : List (Letters × Json)} (h : ∀ p ∈ fields, IsAtom p.2) :
    Printable (Json.obj fields).write := by
  have hfields : ∀ t ∈ writeFields fields, Printable t := by
    induction fields with
    | nil => simp [writeFields]
    | cons p fields ih =>
      obtain ⟨hp, hrest⟩ := List.forall_mem_cons.1 h
      have hcolon : Printable [':', ' '] := by simp [Printable]
      have hfield := (printable_writeString p.1).append (hcolon.append (printable_write_atom hp))
      exact List.forall_mem_cons.2 ⟨by simpa using hfield, ih hrest⟩
  have hopen : Printable ['\x7b'] := by simp [Printable]
  have hclose : Printable ['\x7d'] := by simp [Printable]
  exact (hopen.append (printable_commaSeparated hfields)).append hclose

end Lisplet.Json
