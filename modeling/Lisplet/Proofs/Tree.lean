import Lisplet.Value.Order
import Lisplet.Value.Print

/-!
# Trees

The values that programs are made of: integers that are not too long, symbols, and lists of such
values. What a tree is printed as, what it looks like when it is written down again, and how deep it
nests depend on the tree alone; a depth limit above its nesting is enough to print, describe and
compare it.

Main definitions: `IsTree`, `Value.nesting`, `Value.source`, `Value.written`.
Main statements: `IsTree.print_eq`, `IsTree.describe_eq`, `IsTree.same_written`.
-/

namespace Lisplet

/-- Trees of integers of at most 4300 decimal digits, symbols whose names have a property, and
lists. -/
inductive IsTree (P : String → Prop) : Value → Prop where
  | int {n : Int} (short : (Nat.toDigits 10 n.natAbs).length ≤ 4300) : IsTree P (.int n)
  | symbol {x : String} (name : P x) : IsTree P (.symbol x)
  | list {id : Option ObjectId} {items : List Value} (each : ∀ v ∈ items, IsTree P v) :
      IsTree P (.list id items)

mutual

/-- How many lists the innermost part of a value stands in. -/
def Value.nesting : Value → Nat
  | .list _ items => nestingAll items
  | _ => 0

/-- How many lists the innermost part of the items of a list stands in. -/
def nestingAll : List Value → Nat
  | [] => 0
  | v :: vs => max (v.nesting + 1) (nestingAll vs)

end

mutual

/-- The text of a tree; its items are separated by single spaces. -/
def Value.source : Value → List Char
  | .int n => Text.Numeral.ofInt n
  | .symbol x => x.toList
  | .list _ items => '(' :: spaced (sourceAll items) ++ [')']
  | _ => []

/-- The texts of trees. -/
def sourceAll : List Value → List (List Char)
  | [] => []
  | v :: vs => v.source :: sourceAll vs

end

mutual

/-- A value with its lists as a program would write them, without identities. -/
def Value.written : Value → Value
  | .list _ items => .literal (writtenAll items)
  | v => v

/-- Values with their lists as a program would write them. -/
def writtenAll : List Value → List Value
  | [] => []
  | v :: vs => v.written :: writtenAll vs

end

/-! ## Nesting -/

theorem nestingAll_le_iff {items : List Value} {n : Nat} :
    nestingAll items ≤ n ↔ ∀ v ∈ items, v.nesting < n := by
  induction items with
  | nil => simp [nestingAll]
  | cons v vs ih =>
    rw [nestingAll, Nat.max_le, Nat.succ_le_iff, ih, List.forall_mem_cons]

/-- A limit above the nesting of a list leaves one above the nesting of its items. -/
theorem exists_limit_of_nesting_lt {id : Option ObjectId} {items : List Value} {limit : Nat}
    (h : (Value.list id items).nesting < limit) :
    ∃ l, limit = l + 1 ∧ ∀ v ∈ items, v.nesting < l := by
  obtain ⟨l, rfl⟩ : ∃ l, limit = l + 1 := ⟨limit - 1, by omega⟩
  exact ⟨l, rfl, nestingAll_le_iff.1 (Nat.le_of_lt_succ h)⟩

/-! ## Written trees -/

mutual

theorem Value.nesting_written (v : Value) : v.written.nesting = v.nesting := by
  cases v with
  | list id items => exact nestingAll_writtenAll items
  | _ => rfl

theorem nestingAll_writtenAll (vs : List Value) : nestingAll (writtenAll vs) = nestingAll vs := by
  match vs with
  | [] => rfl
  | v :: vs =>
    simp only [writtenAll, nestingAll]
    rw [Value.nesting_written v, nestingAll_writtenAll vs]

end

mutual

theorem Value.source_written (v : Value) : v.written.source = v.source := by
  cases v with
  | list id items =>
    simp only [Value.written, Value.source]
    rw [sourceAll_writtenAll items]
  | _ => rfl

theorem sourceAll_writtenAll (vs : List Value) : sourceAll (writtenAll vs) = sourceAll vs := by
  match vs with
  | [] => rfl
  | v :: vs =>
    simp only [writtenAll, sourceAll]
    rw [Value.source_written v, sourceAll_writtenAll vs]

end

theorem writtenAll_eq_map (vs : List Value) : writtenAll vs = vs.map Value.written := by
  induction vs with
  | nil => rfl
  | cons v vs ih => simp [writtenAll, ih]

/-! ## Integers -/

theorem lt_bound_iff {n : Nat} :
    n < Text.Numeral.bound ↔ (Nat.toDigits 10 n).length ≤ Text.Numeral.maxDigits := by
  have hpos : 0 < Text.Numeral.maxDigits := by decide
  unfold Text.Numeral.bound
  -- The power must not be computed, so the limit is made a number like any other.
  generalize Text.Numeral.maxDigits = k at hpos ⊢
  exact (Nat.length_toDigits_le_iff (by decide) hpos).symm

/-- An integer of at most 4300 digits can be written. -/
theorem writeInt_eq {n : Int} (short : (Nat.toDigits 10 n.natAbs).length ≤ 4300) :
    writeInt n = .value (Text.Numeral.ofInt n) := by
  unfold writeInt Text.Numeral.writeInt?
  rw [if_pos (lt_bound_iff.2 short)]

/-- Only an integer of at most 4300 digits can be written, and only as its numeral. -/
theorem writeInt_eq_value {n : Int} {cs : List Char} (h : writeInt n = .value cs) :
    (Nat.toDigits 10 n.natAbs).length ≤ 4300 ∧ cs = Text.Numeral.ofInt n := by
  unfold writeInt Text.Numeral.writeInt? at h
  split at h
  · rename_i ds hds
    split at hds
    · rename_i hbound
      cases hds
      cases h
      exact ⟨lt_bound_iff.1 hbound, rfl⟩
    · cases hds
  · cases h

namespace IsTree

variable {P : String → Prop} {v : Value} {limit : Nat}

theorem written (h : IsTree P v) : IsTree P v.written := by
  induction h with
  | int short => exact .int short
  | symbol name => exact .symbol name
  | list each ih =>
    refine .list fun w hw => ?_
    rw [writtenAll_eq_map, List.mem_map] at hw
    obtain ⟨u, hu, rfl⟩ := hw
    exact ih u hu

/-! ## Printing, describing and comparing -/

theorem printAll_eq {l : Nat} {items : List Value}
    (h : ∀ v ∈ items, v.print l = .value v.source) :
    printAll l items = .value (sourceAll items) := by
  induction items with
  | nil => rfl
  | cons v vs ih =>
    obtain ⟨hv, hvs⟩ := List.forall_mem_cons.1 h
    simp [printAll, sourceAll, hv, ih hvs]

theorem print_eq (h : IsTree P v) (hn : v.nesting < limit) : v.print limit = .value v.source := by
  induction h generalizing limit with
  | int short => rw [Value.print, writeInt_eq short, Value.source]
  | symbol name => rfl
  | list each ih =>
    obtain ⟨l, rfl, hitems⟩ := exists_limit_of_nesting_lt hn
    have hall := printAll_eq fun v hv => ih v hv (hitems v hv)
    simp [Value.print, Value.source, hall]

theorem printed_eq (h : IsTree P v) (hn : v.nesting < limit) :
    v.printed limit = .ok (String.ofList v.source) := by
  rw [Value.printed, h.print_eq hn]
  rfl

theorem describeAll_eq {l : Nat} {items : List Value}
    (h : ∀ v ∈ items, ∃ text, v.describe l = .value text) :
    ∃ texts, describeAll l items = .value texts := by
  induction items with
  | nil => exact ⟨[], rfl⟩
  | cons v vs ih =>
    obtain ⟨⟨text, hv⟩, hvs⟩ := List.forall_mem_cons.1 h
    obtain ⟨texts, hall⟩ := ih hvs
    exact ⟨text :: texts, by simp [describeAll, hv, hall]⟩

theorem describe_eq (h : IsTree P v) (hn : v.nesting < limit) :
    ∃ text, v.describe limit = .value text := by
  induction h generalizing limit with
  | @int n short =>
    refine ⟨String.ofList (Text.Numeral.ofInt n), ?_⟩
    rw [Value.describe, writeInt_eq short]
    rfl
  | symbol name => exact ⟨_, rfl⟩
  | list each ih =>
    obtain ⟨l, rfl, hitems⟩ := exists_limit_of_nesting_lt hn
    obtain ⟨texts, hall⟩ := describeAll_eq fun v hv => ih v hv (hitems v hv)
    refine ⟨describeItems texts, ?_⟩
    rw [Value.describe, hall]
    rfl

theorem sameItems_written {l : Nat} {items : List Value}
    (h : ∀ v ∈ items, v.same l v.written = .value true) :
    sameItems l items (writtenAll items) = .value true := by
  induction items with
  | nil => rfl
  | cons v vs ih =>
    obtain ⟨hv, hvs⟩ := List.forall_mem_cons.1 h
    simp [sameItems, writtenAll, hv, ih hvs]

/-- A tree is equal to what it is when written down: identities do not count. -/
theorem same_written (h : IsTree P v) (hn : v.nesting < limit) :
    v.same limit v.written = .value true := by
  induction h generalizing limit with
  | int short => simp [Value.written, Value.same, Value.number?]
  | symbol name => simp [Value.written, Value.same]
  | @list id items each ih =>
    obtain ⟨l, rfl, hitems⟩ := exists_limit_of_nesting_lt hn
    have hall := sameItems_written fun v hv => ih v hv (hitems v hv)
    -- Whether the two are one list does not matter: the items are equal either way.
    have hlen : items.length = (writtenAll items).length := by simp [writtenAll_eq_map]
    simp [Value.written, Value.same, ← hlen, hall]

end IsTree

end Lisplet
