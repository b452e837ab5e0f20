import Lisplet.Json.Decode

/-!
# Documents that nest too deep

When the decoder gives up because of its depth limit. Reading the lexemes of a text from the left,
without a limit, gets to containers that stand inside others; the limit is what ends the decoding
exactly if one of them stands inside `limit` others or more. Whatever is wrong with the text before
that place is found first, and what stands after it does not matter.

Main definition: `Reaches`. Main statements: `decode_eq_tooDeep_iff`, `reaches_brackets`.
-/

namespace Lisplet.Json

/-- The containers around a value that begins in this configuration, if one may begin there. -/
def Config.around? (c : Config) : Option (List Container) :=
  match c.state with
  | .value => some c.containers
  | .firstItem => some (.array [] :: c.containers)
  | _ => none

/-- Whether a lexeme opens a container. -/
def Lexeme.opens : Lexeme → Bool
  | .beginArray | .beginObject => true
  | _ => false

/-- Reading lexemes from a configuration gets to a container inside `n` others. Every lexeme before
it is accepted under some limit, so the limit plays no part. -/
inductive Reaches : Config → Lexemes → Nat → Prop where
  | here {c : Config} {place : Nat} {l : Lexeme} {rest : Lexemes} {outer : List Container}
      (hopens : l.opens = true) (haround : c.around? = some outer) :
      Reaches c (.cons place l rest) outer.length
  | later {c c' : Config} {place n k : Nat} {l : Lexeme} {rest : Lexemes}
      (hstep : step k c place l = .ok c') (hrest : Reaches c' rest n) :
      Reaches c (.cons place l rest) n

/-! ## One lexeme -/

theorem beginValue_eq_tooDeep_iff {limit place : Nat} {outer : List Container} {l : Lexeme} :
    beginValue limit outer place l = .error .tooDeep ↔ l.opens = true ∧ limit ≤ outer.length := by
  cases l <;> simp [beginValue, Lexeme.opens, openInside]

theorem afterValue_ne_tooDeep (v : Json) (containers : List Container) (place : Nat) (l : Lexeme) :
    afterValue v containers place l ≠ .error .tooDeep := by
  unfold afterValue
  split <;> simp

/-- The limit ends a step exactly at a container that it does not admit. -/
theorem step_eq_tooDeep_iff {limit place : Nat} {c : Config} {l : Lexeme} :
    step limit c place l = .error .tooDeep ↔
      l.opens = true ∧ ∃ outer, c.around? = some outer ∧ limit ≤ outer.length := by
  obtain ⟨state, containers⟩ := c
  cases state with
  | value => simp [step, Config.around?, beginValue_eq_tooDeep_iff]
  | firstItem =>
    cases l <;> simp [step, Config.around?, beginValue_eq_tooDeep_iff, Lexeme.opens]
  | firstName => cases l <;> simp [step, Config.around?]
  | name fields => cases l <;> simp [step, Config.around?]
  | colon fields name => cases l <;> simp [step, Config.around?]
  | after v => simp [step, Config.around?, afterValue_ne_tooDeep]

theorem beginValue_limit {k limit place : Nat} (outer : List Container) (l : Lexeme) {c' : Config}
    (h : beginValue k outer place l = .ok c') :
    beginValue limit outer place l = .ok c' ∨ beginValue limit outer place l = .error .tooDeep := by
  -- Only opening a container looks at the limit.
  have hopen : ∀ first, openInside k outer first = .ok c' →
      openInside limit outer first = .ok c' ∨ openInside limit outer first = .error .tooDeep := by
    intro first hfirst
    unfold openInside at hfirst ⊢
    split at hfirst
    · split
      · exact .inl hfirst
      · exact .inr rfl
    · cases hfirst
  cases l with
  | beginArray => exact hopen .firstItem h
  | beginObject => exact hopen .firstName h
  | _ => exact .inl h

/-- A lexeme that is accepted under one limit is accepted under another, with the same effect, or it
nests too deep there. -/
theorem step_limit {k : Nat} (limit : Nat) {place : Nat} {c c' : Config} {l : Lexeme}
    (h : step k c place l = .ok c') :
    step limit c place l = .ok c' ∨ step limit c place l = .error .tooDeep := by
  obtain ⟨state, containers⟩ := c
  cases state with
  | value => exact beginValue_limit containers l h
  | firstItem =>
    cases l with
    | endArray => exact .inl h
    | _ =>
      simp only [step] at h ⊢
      exact beginValue_limit _ _ h
  | firstName => cases l <;> exact .inl h
  | name fields => cases l <;> exact .inl h
  | colon fields name => cases l <;> exact .inl h
  | after v => exact .inl h

/-! ## Whole texts -/

theorem finish_ne_tooDeep (c : Config) (place : Nat) (why : Stop) :
    finish c place why ≠ .error .tooDeep := by
  unfold finish
  split <;> try simp
  split <;> simp

theorem assemble_eq_tooDeep_iff {limit : Nat} {c : Config} {ls : Lexemes} :
    assemble limit c ls = .error .tooDeep ↔ ∃ n, Reaches c ls n ∧ limit ≤ n := by
  constructor
  · intro h
    induction ls generalizing c with
    | stop place why => exact absurd h (finish_ne_tooDeep c place why)
    | cons place l rest ih =>
      simp only [assemble] at h
      split at h
      · rename_i f hstep
        cases h
        obtain ⟨hopens, outer, haround, hle⟩ := step_eq_tooDeep_iff.1 hstep
        exact ⟨outer.length, .here hopens haround, hle⟩
      · rename_i c' hstep
        obtain ⟨n, hreach, hle⟩ := ih h
        exact ⟨n, .later hstep hreach, hle⟩
  · rintro ⟨n, hreach, hle⟩
    induction hreach with
    | here hopens haround =>
      simp [assemble, step_eq_tooDeep_iff.2 ⟨hopens, _, haround, hle⟩]
    | later hstep hrest ih =>
      -- Under this limit the step has the same effect, or the limit is exceeded even earlier.
      rcases step_limit limit hstep with hsame | hdeep
      · simp only [assemble, hsame]
        exact ih hle
      · simp only [assemble, hdeep]

/-- Decoding exceeds the limit exactly if the text has no byte-order mark in front and reading it
gets to a container inside `limit` others or more. -/
theorem decode_eq_tooDeep_iff {limit : Nat} {cs : List Char} :
    decode limit cs = .error .tooDeep ↔
      cs.head? ≠ some '\ufeff' ∧ ∃ n, Reaches ⟨.value, []⟩ (lexemes cs) n ∧ limit ≤ n := by
  unfold decode
  split
  · rename_i hmark
    simp [hmark]
  · rename_i hmark
    rw [assemble_eq_tooDeep_iff]
    simp [hmark]

theorem lexemesFrom_bracket (place : Nat) (cs : List Char) :
    lexemesFrom place ('[' :: cs) = .cons place .beginArray (lexemesFrom (place + 1) cs) := by
  rw [lexemesFrom]
  simp [isSpace, mark?]

/-- The last of `k + 1` brackets stands inside `k` others, and inside those around the first. -/
theorem reaches_brackets {c : Config} {outer : List Container} (h : c.around? = some outer)
    (place k : Nat) :
    Reaches c (lexemesFrom place (List.replicate (k + 1) '[')) (outer.length + k) := by
  induction k generalizing c outer place with
  | zero =>
    rw [List.replicate_succ, lexemesFrom_bracket]
    exact .here rfl h
  | succ k ih =>
    rw [List.replicate_succ, lexemesFrom_bracket]
    have hstep : step (outer.length + 1) c place .beginArray = .ok ⟨.firstItem, outer⟩ := by
      obtain ⟨state, containers⟩ := c
      cases state <;> simp [Config.around?] at h <;> subst h <;>
        simp [step, beginValue, openInside]
    -- The array that was just opened is one more container around the next bracket.
    have hrest := @ih ⟨.firstItem, outer⟩ (.array [] :: outer) rfl (place + 1)
    refine .later hstep ?_
    rwa [List.length_cons, Nat.add_assoc, Nat.add_comm 1 k] at hrest

end Lisplet.Json
