import Lisplet.Proofs.Depth
import Lisplet.Proofs.Tree

/-!
# Equality

All three equality primitives compute one relation: two values are equal if they have the same content.
The content of a value is what is left of it when a boolean is the number it counts as, a list is its
items, and a procedure is its identity. So equality is reflexive, symmetric and transitive.

The comparison has two shortcuts: a list that is compared with itself is not looked into, and lists of
different lengths are told apart at once. Here it is an instance of a comparison with any test for being
one and the same value, and with or without the look at the lengths. Every comparison of that kind has
the same answer, so the shortcuts are only about time and depth.

Main definitions: `Content`, `Value.content`, `Value.sameVia`. Main statements: `Value.sameVia_decides`,
`Value.same_comm`, `Value.same_congr`, `Primitive.equality_of_contents`.
-/

namespace Lisplet

/-! ## Contents -/

/-- What equality sees of a value. A closure is only its identity, and a primitive belongs to the global
frame that it was made for. -/
inductive Content where
  | noValue
  | number (n : Int)
  | symbol (name : String)
  | list (items : List Content)
  | primitive (p : Primitive) (home : FrameId)
  | closure (id : ObjectId)
  | text (s : String)

mutual

/-- The content of a value, where booleans are replaced by the numbers one and zero, at every place of
a list. -/
def Value.content : Value → Content
  | .noValue => .noValue
  | .bool b => .number (if b then 1 else 0)
  | .int n => .number n
  | .symbol x => .symbol x
  | .list _ items => .list (contents items)
  | .primitive p home => .primitive p home
  | .closure id _ _ _ => .closure id
  | .text s => .text s

/-- The contents of values. -/
def contents : List Value → List Content
  | [] => []
  | v :: vs => v.content :: contents vs

end

theorem length_contents (vs : List Value) : (contents vs).length = vs.length := by
  induction vs with
  | nil => rfl
  | cons v vs ih => simp [contents, ih]

/-- A value has the content of a number exactly if it counts as that number. -/
theorem Value.content_eq_number_iff {v : Value} {n : Int} :
    v.content = .number n ↔ v.number? = some n := by
  cases v <;> simp [Value.content, Value.number?]

/-! ## Answers -/

/-- The outcome is no fault, and if it is not cut off, it is the answer whether the proposition holds. -/
def Outcome.Decides (o : Outcome Bool) (P : Prop) : Prop :=
  o = .exhausted ∨ ∃ answer, o = .value answer ∧ (answer = true ↔ P)

namespace Outcome.Decides

variable {o o' : Outcome Bool} {P Q : Prop} {answer : Bool}

theorem answer_iff (h : o.Decides P) (ho : o = .value answer) : answer = true ↔ P := by
  rcases h with hcut | ⟨other, hother, hiff⟩
  · rw [ho] at hcut
    cases hcut
  · rw [ho] at hother
    cases hother
    exact hiff

theorem congr (h : o.Decides P) (hPQ : P ↔ Q) : o.Decides Q :=
  h.imp_right fun ⟨answer, ho, hiff⟩ => ⟨answer, ho, hiff.trans hPQ⟩

theorem pure_of (answer : Bool) (h : answer = true ↔ P) : (pure answer : Outcome Bool).Decides P :=
  Or.inr ⟨answer, rfl, h⟩

/-- One test after the other, as long as the answer is yes, is the test for both. -/
theorem and (h : o.Decides P) (h' : o'.Decides Q) :
    (o >>= fun answer => if answer then o' else pure false).Decides (P ∧ Q) := by
  rcases h with rfl | ⟨answer, rfl, hP⟩
  · exact Or.inl rfl
  · cases answer with
    | true =>
      have hyes : P := hP.1 rfl
      exact h'.congr (by simp [hyes])
    | false =>
      have hno : ¬ P := fun hyes => Bool.false_ne_true (hP.2 hyes)
      exact pure_of false (by simp [hno])

end Outcome.Decides

/-! ## Comparisons with and without shortcuts -/

/-- The test says yes to one and the same value only. -/
def SaysOne (one : Value → Value → Bool) : Prop :=
  ∀ a b, one a b = true → a = b

mutual

/-- Whether two values are equal, where `one` is the test for being one and the same value and `early`
says whether the lengths of lists are looked at first. -/
def Value.sameVia (one : Value → Value → Bool) (early : Bool) (limit : Nat) :
    Value → Value → Outcome Bool
  | .list i xs, .list j ys =>
    if one (.list i xs) (.list j ys) then pure true
    else
      match limit with
      | 0 => .exhausted
      | limit + 1 =>
        if early && xs.length != ys.length then pure false else sameItemsVia one early limit xs ys
  | a, b => if one a b then pure true else a.same limit b

/-- Whether the items of two lists are equal, position by position. -/
def sameItemsVia (one : Value → Value → Bool) (early : Bool) (limit : Nat) :
    List Value → List Value → Outcome Bool
  | x :: xs, y :: ys => do
    if ← x.sameVia one early limit y then sameItemsVia one early limit xs ys else pure false
  | [], [] => pure true
  | _, _ => pure false

end

/-- The test that knows a list made at run time by its identity, and nothing else. -/
def Value.isOneList : Value → Value → Bool
  | .list i xs, .list j ys => oneList i j xs ys
  | _, _ => false

theorem saysOne_isOneList : SaysOne Value.isOneList := by
  intro a b h
  cases a with
  | list i xs =>
    cases b with
    | list j ys =>
      obtain ⟨-, rfl, rfl⟩ := oneList_iff.1 h
      rfl
    | _ => cases h
  | _ => cases h

theorem Value.sameVia_of_not_lists {one : Value → Value → Bool} {early : Bool} {limit : Nat}
    {a b : Value} (h : (a.isList && b.isList) = false) :
    a.sameVia one early limit b = if one a b then pure true else a.same limit b := by
  cases a <;> cases b <;> first | rfl | cases h

mutual

/-- The comparison of the language has both shortcuts. -/
theorem Value.same_eq_sameVia (limit : Nat) (a b : Value) :
    a.same limit b = a.sameVia Value.isOneList true limit b := by
  cases hl : a.isList && b.isList with
  | false =>
    have hone : a.isOneList b = false := by cases a <;> cases b <;> first | rfl | cases hl
    rw [Value.sameVia_of_not_lists hl, hone]
    rfl
  | true =>
    match a, b, hl with
    | .list i xs, .list j ys, _ =>
      have htest : (Value.list i xs).isOneList (.list j ys) = oneList i j xs ys := rfl
      simp only [Value.same, Value.sameVia]
      rw [htest]
      split
      · rfl
      · cases limit with
        | zero => rfl
        | succ limit =>
          by_cases hlen : xs.length = ys.length
          · simp only [hlen, if_true, bne_self_eq_false, Bool.and_false]
            exact sameItems_eq_sameItemsVia limit xs ys hlen
          · simp [hlen]

theorem sameItems_eq_sameItemsVia (limit : Nat) (xs ys : List Value) (h : xs.length = ys.length) :
    sameItems limit xs ys = sameItemsVia Value.isOneList true limit xs ys := by
  match xs, ys, h with
  | [], [], _ => rfl
  | x :: xs, y :: ys, h =>
    have hlen : xs.length = ys.length := by simpa using h
    simp only [sameItems, sameItemsVia]
    rw [Value.same_eq_sameVia limit x y, sameItems_eq_sameItemsVia limit xs ys hlen]

end

/-- Values of which one is no list are told apart by their contents at once. -/
theorem Value.same_leaf (limit : Nat) {a b : Value} (h : (a.isList && b.isList) = false) :
    ∃ answer, a.same limit b = .value answer ∧ (answer = true ↔ a.content = b.content) := by
  cases a <;> cases b <;>
    first
      | exact ⟨_, rfl, by simp [Value.content]⟩
      | cases h

theorem Value.nesting_lt_of_mem {id : Option ObjectId} {items : List Value} {v : Value}
    (h : v ∈ items) : v.nesting < (Value.list id items).nesting :=
  nestingAll_le_iff.1 (Nat.le_refl _) v h

section Via

variable {one : Value → Value → Bool}

mutual

/-- Whatever the shortcuts are, the comparison has no fault, and its answer is whether the contents are
the same. -/
theorem Value.sameVia_decides (hone : SaysOne one) (early : Bool) (limit : Nat) (a b : Value) :
    (a.sameVia one early limit b).Decides (a.content = b.content) := by
  cases hl : a.isList && b.isList with
  | false =>
    rw [Value.sameVia_of_not_lists hl]
    split
    · next hyes =>
      obtain rfl := hone a b hyes
      exact .pure_of true (by simp)
    · exact Or.inr (Value.same_leaf limit hl)
  | true =>
    match a, b, hl with
    | .list i xs, .list j ys, _ =>
      simp only [Value.sameVia, Value.content, Content.list.injEq]
      split
      · next hyes =>
        cases hone _ _ hyes
        exact .pure_of true (by simp)
      · cases limit with
        | zero => exact Or.inl rfl
        | succ limit =>
          dsimp only
          split
          · -- Lists of different lengths have different contents.
            next hlen =>
            have hne : xs.length ≠ ys.length := by
              simp only [Bool.and_eq_true, bne_iff_ne] at hlen
              exact hlen.2
            refine .pure_of false ⟨fun h => Bool.noConfusion h, fun hcontents => ?_⟩
            apply absurd _ hne
            rw [← length_contents, ← length_contents, hcontents]
          · exact sameItemsVia_decides hone early limit xs ys

theorem sameItemsVia_decides (hone : SaysOne one) (early : Bool) (limit : Nat) (xs ys : List Value) :
    (sameItemsVia one early limit xs ys).Decides (contents xs = contents ys) := by
  match xs, ys with
  | [], [] => exact .pure_of true (by simp)
  | [], _ :: _ | _ :: _, [] => exact .pure_of false (by simp [contents])
  | x :: xs, y :: ys =>
    simp only [sameItemsVia, contents, List.cons.injEq]
    exact (Value.sameVia_decides hone early limit x y).and (sameItemsVia_decides hone early limit xs ys)

end

mutual

/-- The comparison is cut off only at a limit that neither value nests below. -/
theorem Value.le_nesting_of_sameVia {early : Bool} {limit : Nat} (a b : Value)
    (h : a.sameVia one early limit b = .exhausted) : limit ≤ min a.nesting b.nesting := by
  cases hl : a.isList && b.isList with
  | false =>
    rw [Value.sameVia_of_not_lists hl] at h
    obtain ⟨answer, hanswer, -⟩ := Value.same_leaf limit hl
    rw [hanswer] at h
    split at h <;> cases h
  | true =>
    match a, b, hl with
    | .list i xs, .list j ys, _ =>
      simp only [Value.sameVia] at h
      split at h
      · cases h
      · cases limit with
        | zero => exact Nat.zero_le _
        | succ limit =>
          dsimp only at h
          split at h
          · cases h
          · obtain ⟨x, hx, y, hy, hdeep⟩ := exists_deep_of_sameItemsVia xs ys h
            have hleft : x.nesting < (Value.list i xs).nesting := Value.nesting_lt_of_mem hx
            have hright : y.nesting < (Value.list j ys).nesting := Value.nesting_lt_of_mem hy
            omega

theorem exists_deep_of_sameItemsVia {early : Bool} {limit : Nat} (xs ys : List Value)
    (h : sameItemsVia one early limit xs ys = .exhausted) :
    ∃ x ∈ xs, ∃ y ∈ ys, limit ≤ min x.nesting y.nesting := by
  match xs, ys with
  | [], [] | [], _ :: _ | _ :: _, [] => cases h
  | x :: xs, y :: ys =>
    simp only [sameItemsVia] at h
    cases hxy : x.sameVia one early limit y with
    | exhausted =>
      exact ⟨x, List.mem_cons_self .., y, List.mem_cons_self .., Value.le_nesting_of_sameVia x y hxy⟩
    | fault f =>
      rw [hxy] at h
      cases h
    | value answer =>
      rw [hxy] at h
      cases answer with
      | false => cases h
      | true =>
        obtain ⟨x', hx, y', hy, hdeep⟩ := exists_deep_of_sameItemsVia xs ys h
        exact ⟨x', List.mem_cons_of_mem _ hx, y', List.mem_cons_of_mem _ hy, hdeep⟩

end

/-- So the answer is known beforehand, unless the comparison is cut off. -/
theorem Value.sameVia_eq (hone : SaysOne one) {a b : Value} {answer : Bool}
    (hanswer : answer = true ↔ a.content = b.content) (early : Bool) (limit : Nat) :
    a.sameVia one early limit b = .value answer ∨
      a.sameVia one early limit b = .exhausted ∧ limit ≤ min a.nesting b.nesting := by
  rcases Value.sameVia_decides hone early limit a b with hcut | ⟨other, hother, hiff⟩
  · exact Or.inr ⟨hcut, Value.le_nesting_of_sameVia a b hcut⟩
  · rw [hother, Bool.eq_iff_iff.2 (hiff.trans hanswer.symm)]
    exact Or.inl rfl

end Via

/-! ## The comparison of the language -/

section Same

variable {limit : Nat} {a b c : Value} {answer : Bool}

theorem Value.same_decides (limit : Nat) (a b : Value) :
    (a.same limit b).Decides (a.content = b.content) := by
  rw [Value.same_eq_sameVia]
  exact Value.sameVia_decides saysOne_isOneList true limit a b

/-- Equality has an answer, unless it is cut off at a limit that neither value nests below. -/
theorem Value.same_cases (limit : Nat) (a b : Value) :
    (∃ answer, a.same limit b = .value answer) ∨
      a.same limit b = .exhausted ∧ limit ≤ min a.nesting b.nesting := by
  rcases Value.same_decides limit a b with hcut | ⟨answer, hanswer, -⟩
  · refine Or.inr ⟨hcut, ?_⟩
    rw [Value.same_eq_sameVia] at hcut
    exact Value.le_nesting_of_sameVia a b hcut
  · exact Or.inl ⟨answer, hanswer⟩

theorem oneList_comm (i j : Option ObjectId) (xs ys : List Value) :
    oneList i j xs ys = oneList j i ys xs := by
  rw [Bool.eq_iff_iff, oneList_iff, oneList_iff]
  constructor
  · rintro ⟨hsome, rfl, rfl⟩
    exact ⟨hsome, rfl, rfl⟩
  · rintro ⟨hsome, rfl, rfl⟩
    exact ⟨hsome, rfl, rfl⟩

/-- Both answers about values of which one is no list are whether the contents are the same. -/
theorem Value.same_comm_of_not_lists (hl : (a.isList && b.isList) = false) :
    a.same limit b = b.same limit a := by
  obtain ⟨x, hx, hiff⟩ := Value.same_leaf limit hl
  obtain ⟨y, hy, hiff'⟩ := Value.same_leaf limit (Bool.and_comm _ _ ▸ hl)
  have hxy : x = y := Bool.eq_iff_iff.2 (hiff.trans (eq_comm.trans hiff'.symm))
  rw [hx, hy, hxy]

mutual

/-- The comparison is symmetric, also in whether it is cut off. -/
theorem Value.same_comm (limit : Nat) (a b : Value) : a.same limit b = b.same limit a := by
  cases hl : a.isList && b.isList with
  | false => exact Value.same_comm_of_not_lists hl
  | true =>
    match a, b, hl with
    | .list i xs, .list j ys, _ =>
      simp only [Value.same]
      rw [oneList_comm]
      split
      · rfl
      · cases limit with
        | zero => rfl
        | succ limit =>
          dsimp only
          rw [sameItems_comm limit xs ys]
          simp only [eq_comm]

theorem sameItems_comm (limit : Nat) (xs ys : List Value) :
    sameItems limit xs ys = sameItems limit ys xs := by
  match xs, ys with
  | [], [] | [], _ :: _ | _ :: _, [] => rfl
  | x :: xs, y :: ys =>
    simp only [sameItems]
    rw [Value.same_comm limit x y, sameItems_comm limit xs ys]

end

/-- How the comparison of two lists comes to an answer: they are one list, or their lengths are
different, or their items are compared with one unit of depth less. -/
theorem Value.same_lists_cases {i j : Option ObjectId} {xs ys : List Value}
    (h : (Value.list i xs).same limit (.list j ys) = .value answer) :
    (oneList i j xs ys = true ∧ answer = true) ∨
      ∃ l, limit = l + 1 ∧ (xs.length = ys.length ∧ sameItems l xs ys = .value answer ∨
        xs.length ≠ ys.length ∧ answer = false) := by
  simp only [Value.same] at h
  split at h
  · next hone =>
    cases h
    exact Or.inl ⟨hone, rfl⟩
  · cases limit with
    | zero => cases h
    | succ l =>
      refine Or.inr ⟨l, rfl, ?_⟩
      dsimp only at h
      split at h
      · next hlen => exact Or.inl ⟨hlen, h⟩
      · next hlen =>
        cases h
        exact Or.inr ⟨hlen, rfl⟩

/-- Only a list is equal to a list. -/
theorem Value.isList_of_same (h : a.same limit b = .value true) : a.isList = b.isList := by
  have hcontent : a.content = b.content := ((Value.same_decides limit a b).answer_iff h).1 rfl
  cases a <;> cases b <;> first | rfl | cases hcontent

mutual

/-- A value that is equal to the second one can take its place in the comparison. This holds at every
limit: it does not take more depth. -/
theorem Value.same_congr (limit : Nat) (a b c : Value) {answer : Bool}
    (h : a.same limit b = .value answer) (hbc : b.same limit c = .value true) :
    a.same limit c = .value answer := by
  -- The answer is known from the contents, so it is enough that the comparison is not cut off.
  suffices hanswers : a.same limit c ≠ .exhausted by
    have hcontent : b.content = c.content := ((Value.same_decides limit b c).answer_iff hbc).1 rfl
    have hfirst := (Value.same_decides limit a b).answer_iff h
    rcases Value.same_decides limit a c with hcut | ⟨other, hother, hiff⟩
    · exact absurd hcut hanswers
    · rw [hother, Bool.eq_iff_iff.2 (hiff.trans (hcontent ▸ hfirst.symm))]
  cases hl : a.isList && c.isList with
  | false =>
    obtain ⟨other, hother, -⟩ := Value.same_leaf limit hl
    simp [hother]
  | true =>
    have hb : b.isList = true := by
      rw [Value.isList_of_same hbc]
      exact (Bool.and_eq_true_iff.1 hl).2
    match a, b, c, hl, hb with
    | .list i xs, .list j ys, .list k zs, _, _ =>
      rcases Value.same_lists_cases h with ⟨hone, -⟩ | ⟨l, rfl, hxy⟩
      · -- The first value is the second one.
        obtain ⟨-, rfl, rfl⟩ := oneList_iff.1 hone
        simp [hbc]
      · rcases Value.same_lists_cases hbc with ⟨hone, -⟩ | ⟨l', hl', ⟨hlen, hyz⟩ | ⟨-, hno⟩⟩
        · -- The third value is the second one.
          obtain ⟨-, rfl, rfl⟩ := oneList_iff.1 hone
          simp [h]
        · obtain rfl : l = l' := by omega
          simp only [Value.same]
          split
          · simp
          · rcases hxy with ⟨hlen', hxy⟩ | ⟨hne, -⟩
            · simp [hlen', hlen, sameItems_congr l xs ys zs hlen hxy hyz]
            · simp [show xs.length ≠ zs.length from hlen ▸ hne]
        · cases hno

theorem sameItems_congr (limit : Nat) (xs ys zs : List Value) {answer : Bool}
    (hlen : ys.length = zs.length) (h : sameItems limit xs ys = .value answer)
    (hyz : sameItems limit ys zs = .value true) : sameItems limit xs zs = .value answer := by
  match xs, ys, zs, hlen with
  | [], _, _, _ =>
    simp only [sameItems] at h ⊢
    exact h
  | _ :: _, [], [], _ => exact h
  | x :: xs, y :: ys, z :: zs, hlen =>
    simp only [sameItems] at h hyz ⊢
    obtain ⟨first, hfirst, hrest⟩ := Outcome.bind_eq_value h
    obtain ⟨same, hsame, hmore⟩ := Outcome.bind_eq_value hyz
    cases same with
    | false => cases hmore
    | true =>
      rw [Value.same_congr limit x y z hfirst hsame, Outcome.value_bind]
      cases first with
      | true => exact sameItems_congr limit xs ys zs (by simpa using hlen) hrest hmore
      | false => exact hrest

end

end Same

/-! ## The primitives -/

namespace Outcome

variable {o : Outcome Bool} {answer : Bool}

theorem bind_bool_eq_value_iff :
    (o >>= fun answer => pure (Value.bool answer)) = .value (.bool answer) ↔ o = .value answer := by
  cases o <;> simp

theorem bind_bool_eq_exhausted_iff :
    (o >>= fun answer => pure (Value.bool answer)) = .exhausted ↔ o = .exhausted := by
  cases o <;> simp

end Outcome

namespace Primitive

theorem call_equality {p : Primitive} (hp : p ∈ [.eqNumber, .eqIdentity, .eqStructure]) (limit : Nat)
    (id : ObjectId) (a b : Value) :
    p.call limit id [a, b] = a.same limit b >>= fun answer => pure (.bool answer) := by
  simp only [List.mem_cons, List.not_mem_nil, or_false] at hp
  rcases hp with rfl | rfl | rfl <;> rfl

/-- The three equality primitives compute one relation. A call of any of them on two values never fails:
its answer is whether the values have the same content, and it can be cut off only at a limit that
neither of the two nests below. Neither the test for being one and the same value nor the look at the
lengths changes the answer, since every comparison of that kind has the same one. The relation is
reflexive, symmetric and transitive, and for the last two no call takes more depth than those it follows
from. -/
theorem equality_of_contents {p : Primitive} (hp : p ∈ [.eqNumber, .eqIdentity, .eqStructure])
    (id : ObjectId) (a b : Value) :
    (∃ answer : Bool, (answer = true ↔ a.content = b.content) ∧
      (∀ limit, p.call limit id [a, b] = .value (.bool answer) ∨
        p.call limit id [a, b] = .exhausted ∧ limit ≤ min a.nesting b.nesting) ∧
      ∀ one early limit, SaysOne one → a.sameVia one early limit b = .value answer ∨
        a.sameVia one early limit b = .exhausted ∧ limit ≤ min a.nesting b.nesting) ∧
    (SaysOne Value.isOneList ∧ ∀ limit, p.call limit id [a, b] =
      a.sameVia Value.isOneList true limit b >>= fun answer => pure (.bool answer)) ∧
    (∀ limit, p.call limit id [a, a] = .value (.bool true) ∨
      p.call limit id [a, a] = .exhausted ∧ limit ≤ a.nesting) ∧
    (∀ limit, p.call limit id [a, b] = p.call limit id [b, a]) ∧
    ∀ limit c, p.call limit id [a, b] = .value (.bool true) →
      p.call limit id [b, c] = .value (.bool true) → p.call limit id [a, c] = .value (.bool true) := by
  have hvalue : ∀ limit (v w : Value) (answer : Bool),
      p.call limit id [v, w] = .value (.bool answer) ↔ v.same limit w = .value answer := by
    intro limit v w answer
    rw [call_equality hp]
    exact Outcome.bind_bool_eq_value_iff
  have hcut : ∀ limit (v w : Value),
      p.call limit id [v, w] = .exhausted ↔ v.same limit w = .exhausted := by
    intro limit v w
    rw [call_equality hp]
    exact Outcome.bind_bool_eq_exhausted_iff
  classical
  have hanswer : decide (a.content = b.content) = true ↔ a.content = b.content := decide_eq_true_iff
  refine ⟨⟨_, hanswer, ?_, ?_⟩, ⟨saysOne_isOneList, ?_⟩, ?_, ?_, ?_⟩
  · intro limit
    rw [hvalue, hcut, Value.same_eq_sameVia]
    exact Value.sameVia_eq saysOne_isOneList hanswer true limit
  · intro one early limit hone
    exact Value.sameVia_eq hone hanswer early limit
  · intro limit
    rw [call_equality hp, Value.same_eq_sameVia]
  · intro limit
    have hself : true = true ↔ a.content = a.content := by simp
    rw [hvalue, hcut, Value.same_eq_sameVia]
    simpa using Value.sameVia_eq saysOne_isOneList hself true limit
  · intro limit
    rw [call_equality hp, call_equality hp, Value.same_comm]
  · intro limit c hab hbc
    rw [hvalue] at hab hbc ⊢
    exact Value.same_congr limit a b c hab hbc

/-- A boolean and the number it counts as, inside lists of which some have an identity and some have
none; with a test that never says yes, and without a look at the lengths. -/
theorem equality_of_contents_mixed :
    let a := Value.list (some 4) [.bool true, .literal [.symbol "x", .noValue]]
    let b := Value.literal [.int 1, .list (some 9) [.symbol "x", .noValue]]
    let c := Value.list (some 5) [.bool true, .list (some 9) [.symbol "x", .noValue]]
    let never : Value → Value → Bool := fun _ _ => false
    Primitive.eqIdentity ∈ [.eqNumber, .eqIdentity, .eqStructure] ∧ SaysOne never ∧
      Primitive.eqIdentity.call 3 0 [a, b] = .value (.bool true) ∧
      Primitive.eqIdentity.call 3 0 [b, c] = .value (.bool true) ∧
      Primitive.eqIdentity.call 3 0 [a, c] = .value (.bool true) ∧
      a.sameVia never false 3 b = .value true := by
  intro a b c never
  have hp : Primitive.eqIdentity ∈ [.eqNumber, .eqIdentity, .eqStructure] := by decide
  have hnever : SaysOne never := fun _ _ h => Bool.noConfusion h
  have hab : Primitive.eqIdentity.call 3 0 [a, b] = .value (.bool true) := rfl
  have hbc : Primitive.eqIdentity.call 3 0 [b, c] = .value (.bool true) := rfl
  obtain ⟨⟨answer, -, hcalls, hvia⟩, -, -, -, htrans⟩ := equality_of_contents hp 0 a b
  refine ⟨hp, hnever, hab, hbc, htrans 3 c hab hbc, ?_⟩
  -- Both nest to a depth below the limit, so nothing is cut off.
  have hdeep : ¬ 3 ≤ min a.nesting b.nesting := by decide
  have hyes : answer = true := by
    rcases hcalls 3 with hcall | ⟨-, hle⟩
    · rw [hab] at hcall
      cases hcall
      rfl
    · exact absurd hle hdeep
  rcases hvia never false 3 hnever with hsame | ⟨-, hle⟩
  · rw [hsame, hyes]
  · exact absurd hle hdeep

end Primitive

end Lisplet
