import Lisplet.Proofs.Equality
import Mathlib.Data.List.Forall2

/-!
# Order

The four order relations are read off one comparison, which finds out how two values stand to each other
or that they have no order. So the relations always agree with each other: all of them have an answer or
none has, and the answers are those of a linear order whose equality is the equality of values.

The comparison of two lists skips the items in front that are equal and then compares the first two that
are not. Equal items need not have an order themselves, which is why an order of lists can exist where
items have none, and why equality has to be settled before anything else can be.

Main definitions: `Comparison`, `Value.order`, `Value.CountsAs`. Main statements: `Value.holds_eq_order`,
`Value.order_swap`, `Value.same_of_order`, `Value.order_trans`, `Primitive.ordering_coherent`.
-/

namespace Lisplet

/-! ## Comparisons -/

/-- How two values stand to each other, or the types of the two that have no order. -/
inductive Comparison where
  | ordered (o : Ordering)
  | unordered (left right : Kind)

namespace Comparison

/-- The comparison the other way round. -/
def swap : Comparison → Comparison
  | .ordered o => .ordered o.swap
  | .unordered left right => .unordered right left

/-- What the comparison says about a relation. -/
def verdict (r : Relation) : Comparison → Outcome Bool
  | .ordered o => .value (r.admits o)
  | .unordered left right => .fault (.incomparable r.primitive left right)

@[simp]
theorem swap_compare {α : Type} [Ord α] [Std.OrientedOrd α] (x y : α) :
    (ordered (compare x y)).swap = .ordered (compare y x) :=
  congrArg ordered Std.OrientedCmp.eq_swap.symm

end Comparison

mutual

/-- How two values compare. -/
def Value.order (limit : Nat) : Value → Value → Outcome Comparison
  | .list i xs, .list j ys =>
    if oneList i j xs ys then pure (.ordered .eq)
    else
      match limit with
      | 0 => .exhausted
      | limit + 1 => itemsOrder limit xs ys
  | .text s, .text t => pure (.ordered (compare s t))
  | a, b =>
    match a.number?, b.number? with
    | some m, some n => pure (.ordered (compare m n))
    | _, _ => pure (.unordered a.kind b.kind)

/-- How two lists compare: as the first items that are not equal, or else by their lengths. -/
def itemsOrder (limit : Nat) : List Value → List Value → Outcome Comparison
  | x :: xs, y :: ys => do
    if ← x.same limit y then itemsOrder limit xs ys else x.order limit y
  | xs, ys => pure (.ordered (compare xs.length ys.length))

end

mutual

/-- Every relation is read off the comparison. -/
theorem Value.holds_eq_order (limit : Nat) (r : Relation) (a b : Value) :
    a.holds limit r b = a.order limit b >>= Comparison.verdict r := by
  cases hl : a.isList && b.isList with
  | false => cases a <;> cases b <;> first | rfl | cases hl
  | true =>
    match a, b, hl with
    | .list i xs, .list j ys, _ =>
      simp only [Value.holds, Value.order]
      by_cases hone : oneList i j xs ys = true
      · simp [hone, Comparison.verdict]
      · cases limit with
        | zero => simp [hone]
        | succ limit =>
          simp only [hone]
          exact itemsHold_eq_itemsOrder limit r xs ys

theorem itemsHold_eq_itemsOrder (limit : Nat) (r : Relation) (xs ys : List Value) :
    itemsHold limit r xs ys = itemsOrder limit xs ys >>= Comparison.verdict r := by
  match xs, ys with
  | [], _ | _ :: _, [] =>
    simp only [itemsHold, itemsOrder]
    rfl
  | x :: xs, y :: ys =>
    simp only [itemsHold, itemsOrder]
    -- Equality is tested in both, and then both go on in the same way.
    cases x.same limit y with
    | value answer =>
      cases answer with
      | true => exact itemsHold_eq_itemsOrder limit r xs ys
      | false => exact x.holds_eq_order limit r y
    | fault f => rfl
    | exhausted => rfl

end

/-! ## What can be compared -/

section Kinds

variable {a b : Value} {m n : Int}

/-- What a value counts as in comparisons: an integer as itself, false as 0 and true as 1. -/
inductive Value.CountsAs : Value → Int → Prop where
  | int {n : Int} : CountsAs (.int n) n
  | false : CountsAs (.bool false) 0
  | true : CountsAs (.bool true) 1

theorem Value.countsAs_iff : a.CountsAs n ↔ a.number? = some n := by
  constructor
  · intro h
    cases h <;> rfl
  · intro h
    cases a with
    | int k =>
      cases h
      exact .int
    | bool c =>
      cases c <;> cases h
      · exact .false
      · exact .true
    | _ => cases h

theorem Value.kind_of_isList (h : a.isList = true) : a.kind = .list := by
  cases a with
  | list => rfl
  | _ => cases h

theorem Value.isList_of_number (h : a.number? = some n) : a.isList = false := by
  cases Value.countsAs_iff.2 h <;> rfl

/-- Values that count as numbers compare as the numbers. -/
theorem Value.order_numbers (limit : Nat) (ha : a.number? = some m) (hb : b.number? = some n) :
    a.order limit b = .value (.ordered (compare m n)) := by
  cases Value.countsAs_iff.2 ha <;> cases Value.countsAs_iff.2 hb <;> rfl

/-- Two numbers, two texts and two lists can be compared, and nothing else can. -/
theorem Value.comparable_cases (a b : Value) :
    (∃ m n, a.number? = some m ∧ b.number? = some n) ∨ (∃ s t, a = .text s ∧ b = .text t) ∨
      (a.isList && b.isList) = true ∨
      ∀ limit, a.order limit b = .value (.unordered a.kind b.kind) ∧
        b.order limit a = .value (.unordered b.kind a.kind) := by
  cases a <;> cases b <;>
    first
      | exact Or.inl ⟨_, _, rfl, rfl⟩
      | exact Or.inr (Or.inl ⟨_, _, rfl, rfl⟩)
      | exact Or.inr (Or.inr (Or.inl rfl))
      | exact Or.inr (Or.inr (Or.inr fun _ => ⟨rfl, rfl⟩))

/-- Values that have an order are two numbers, two texts or two lists. -/
theorem Value.ordered_cases {limit : Nat} {o : Ordering} (h : a.order limit b = .value (.ordered o)) :
    (∃ m n, a.number? = some m ∧ b.number? = some n ∧ compare m n = o) ∨
      (∃ s t, a = .text s ∧ b = .text t ∧ compare s t = o) ∨ (a.isList && b.isList) = true := by
  rcases a.comparable_cases b with ⟨m, n, ha, hb⟩ | ⟨s, t, rfl, rfl⟩ | hlists | hnone
  · rw [Value.order_numbers limit ha hb] at h
    cases h
    exact Or.inl ⟨m, n, ha, hb, rfl⟩
  · cases h
    exact Or.inr (Or.inl ⟨s, t, rfl, rfl, rfl⟩)
  · exact Or.inr (Or.inr hlists)
  · rw [(hnone limit).1] at h
    cases h

end Kinds

/-! ## The other way round -/

mutual

/-- With the values exchanged the comparison is the same the other way round, also in whether it is cut
off. -/
theorem Value.order_swap (limit : Nat) (a b : Value) :
    b.order limit a = a.order limit b >>= fun c => pure c.swap := by
  rcases a.comparable_cases b with ⟨m, n, ha, hb⟩ | ⟨s, t, rfl, rfl⟩ | hlists | hnone
  · simp [Value.order_numbers limit ha hb, Value.order_numbers limit hb ha]
  · simp [Value.order]
  · match a, b, hlists with
    | .list i xs, .list j ys, _ =>
      simp only [Value.order]
      rw [oneList_comm]
      by_cases hone : oneList i j xs ys = true
      · simp [hone, Comparison.swap]
      · cases limit with
        | zero => simp [hone]
        | succ limit =>
          simp only [hone]
          exact itemsOrder_swap limit xs ys
  · rw [(hnone limit).1, (hnone limit).2]
    rfl

theorem itemsOrder_swap (limit : Nat) (xs ys : List Value) :
    itemsOrder limit ys xs = itemsOrder limit xs ys >>= fun c => pure c.swap := by
  match xs, ys with
  | [], [] | [], _ :: _ | _ :: _, [] =>
    simp only [itemsOrder, Outcome.pure_eq_value, Outcome.value_bind, Comparison.swap_compare]
  | x :: xs, y :: ys =>
    simp only [itemsOrder]
    rw [Value.same_comm limit y x]
    cases x.same limit y with
    | value answer =>
      cases answer with
      | true => exact itemsOrder_swap limit xs ys
      | false => exact Value.order_swap limit x y
    | fault f => rfl
    | exhausted => rfl

end

/-! ## Order and equality -/

section Equality

variable {limit : Nat} {a b : Value} {c : Comparison} {o : Ordering}

/-- How the comparison of two lists comes to an end: they are one list, or their items are compared with
one unit of depth less. -/
theorem Value.order_lists_cases {i j : Option ObjectId} {xs ys : List Value}
    (h : (Value.list i xs).order limit (.list j ys) = .value c) :
    (oneList i j xs ys = true ∧ c = .ordered .eq) ∨
      ∃ l, limit = l + 1 ∧ itemsOrder l xs ys = .value c := by
  simp only [Value.order] at h
  split at h
  · next hone =>
    cases h
    exact Or.inl ⟨hone, rfl⟩
  · cases limit with
    | zero => cases h
    | succ l => exact Or.inr ⟨l, rfl, h⟩

/-- The first items of two lists that compare are equal, and the rest compares, or they are not, and they
compare themselves. -/
theorem itemsOrder_cons_cases {x y : Value} {xs ys : List Value}
    (h : itemsOrder limit (x :: xs) (y :: ys) = .value c) :
    (x.same limit y = .value true ∧ itemsOrder limit xs ys = .value c) ∨
      (x.same limit y = .value false ∧ x.order limit y = .value c) := by
  simp only [itemsOrder] at h
  obtain ⟨answer, hanswer, hrest⟩ := Outcome.bind_eq_value h
  cases answer with
  | true => exact Or.inl ⟨hanswer, hrest⟩
  | false => exact Or.inr ⟨hanswer, hrest⟩

theorem isEq_compare {α : Type} [Ord α] [Std.LawfulEqOrd α] {x y : α} :
    (compare x y).isEq = true ↔ x = y := by
  rw [Ordering.isEq_iff_eq_eq]
  exact Std.LawfulEqCmp.compare_eq_iff_eq

mutual

/-- Values that have an order are equal exactly if it is the order of equals, and their equality takes no
more depth than their order. -/
theorem Value.same_of_order (limit : Nat) (a b : Value) {o : Ordering}
    (h : a.order limit b = .value (.ordered o)) : a.same limit b = .value o.isEq := by
  rcases Value.ordered_cases h with ⟨m, n, ha, hb, rfl⟩ | ⟨s, t, rfl, rfl, rfl⟩ | hlists
  · have hl : (a.isList && b.isList) = false := by rw [Value.isList_of_number ha, Bool.false_and]
    obtain ⟨answer, hanswer, hiff⟩ := Value.same_leaf limit hl
    rw [Value.content_eq_number_iff.2 ha, Value.content_eq_number_iff.2 hb, Content.number.injEq] at hiff
    rw [hanswer, Bool.eq_iff_iff.2 (hiff.trans isEq_compare.symm)]
  · have hiff : (s == t) = true ↔ (compare s t).isEq = true := by
      rw [isEq_compare]
      exact beq_iff_eq
    simp only [Value.same]
    rw [Bool.eq_iff_iff.2 hiff]
    rfl
  · match a, b, hlists with
    | .list i xs, .list j ys, _ =>
      simp only [Value.same]
      rcases Value.order_lists_cases h with ⟨hone, heq⟩ | ⟨l, rfl, hitems⟩
      · cases heq
        rw [if_pos hone]
        rfl
      · split
        · -- One list is the same list, whatever its items are.
          next hone =>
          simp only [Value.order, if_pos hone] at h
          cases h
          rfl
        · have hlengths := sameItems_of_order l xs ys hitems
          dsimp only
          split
          · next hlen => exact hlengths.1 hlen
          · next hlen =>
            have hne : o.isEq = false := by simpa using hlengths.2 hlen
            rw [hne]
            rfl

theorem sameItems_of_order (limit : Nat) (xs ys : List Value) {o : Ordering}
    (h : itemsOrder limit xs ys = .value (.ordered o)) :
    (xs.length = ys.length → sameItems limit xs ys = .value o.isEq) ∧
      (xs.length ≠ ys.length → o ≠ .eq) := by
  match xs, ys with
  | [], [] =>
    cases h
    exact ⟨fun _ => rfl, fun hne => absurd rfl hne⟩
  | [], y :: ys =>
    cases h
    exact ⟨fun hlen => by simp at hlen, fun _ => by simp⟩
  | x :: xs, [] =>
    cases h
    exact ⟨fun hlen => by simp at hlen, fun _ => by simp⟩
  | x :: xs, y :: ys =>
    simp only [sameItems, List.length_cons, Nat.add_right_cancel_iff, ne_eq]
    rcases itemsOrder_cons_cases h with ⟨hsame, hrest⟩ | ⟨hsame, horder⟩
    · rw [hsame]
      exact sameItems_of_order limit xs ys hrest
    · -- The items that decide are not equal, and then neither are the lists.
      have heq : o.isEq = false := by
        rw [Value.same_of_order limit x y horder] at hsame
        exact Outcome.value.inj hsame
      rw [hsame, heq]
      exact ⟨fun _ => rfl, fun _ ho => by simp [ho] at heq⟩

end

/-- First items that have an order and are not equal decide. -/
theorem itemsOrder_of_decided {x y : Value} (h : x.order limit y = .value (.ordered o))
    (ho : o.isEq = false) (xs ys : List Value) :
    itemsOrder limit (x :: xs) (y :: ys) = .value (.ordered o) := by
  simp only [itemsOrder, Value.same_of_order limit x y h, ho]
  exact h

/-- Lists whose items are equal compare as equals, whether the items have an order or not. -/
theorem itemsOrder_of_same {xs ys : List Value} (hlen : xs.length = ys.length)
    (h : sameItems limit xs ys = .value true) : itemsOrder limit xs ys = .value (.ordered .eq) := by
  induction xs generalizing ys with
  | nil =>
    cases ys with
    | nil => rfl
    | cons y ys => cases hlen
  | cons x xs ih =>
    cases ys with
    | nil => cases hlen
    | cons y ys =>
      simp only [sameItems] at h
      obtain ⟨answer, hanswer, hrest⟩ := Outcome.bind_eq_value h
      cases answer with
      | false => cases hrest
      | true =>
        simp only [itemsOrder, hanswer]
        exact ih (by simpa using hlen) hrest

theorem Value.order_of_same {i j : Option ObjectId} {xs ys : List Value}
    (h : (Value.list i xs).same limit (.list j ys) = .value true) :
    (Value.list i xs).order limit (.list j ys) = .value (.ordered .eq) := by
  simp only [Value.order]
  rcases Value.same_lists_cases h with ⟨hone, -⟩ | ⟨l, rfl, ⟨hlen, hitems⟩ | ⟨-, hno⟩⟩
  · rw [if_pos hone]
    rfl
  · split
    · rfl
    · exact itemsOrder_of_same hlen hitems
  · cases hno

/-- The comparison of the items is the comparison of the lists, also if they are one list. -/
theorem Value.order_of_items {xs ys : List Value} (h : itemsOrder limit xs ys = .value (.ordered o))
    (i j : Option ObjectId) :
    (Value.list i xs).order (limit + 1) (.list j ys) = .value (.ordered o) := by
  simp only [Value.order]
  split
  · next hone =>
    obtain ⟨-, rfl, rfl⟩ := oneList_iff.1 hone
    have hsame : sameItems limit xs xs = .value o.isEq := (sameItems_of_order limit xs xs h).1 rfl
    have hlists : (Value.list none xs).same (limit + 1) (.literal xs) = .value o.isEq := by
      simp [Value.same, oneList, hsame]
    have heq : o.isEq = true := ((Value.same_decides _ _ _).answer_iff hlists).2 rfl
    rw [Ordering.isEq_iff_eq_eq.1 heq]
    rfl
  · exact h

end Equality

/-! ## Transitivity -/

mutual

/-- A value that is equal to the second one can take its place in the comparison. -/
theorem Value.order_congr (limit : Nat) (a b c : Value) {o : Ordering}
    (h : a.order limit b = .value (.ordered o)) (hbc : b.same limit c = .value true) :
    a.order limit c = .value (.ordered o) := by
  have hcontent : b.content = c.content := ((Value.same_decides limit b c).answer_iff hbc).1 rfl
  rcases Value.ordered_cases h with ⟨m, n, ha, hb, rfl⟩ | ⟨s, t, rfl, rfl, -⟩ | hlists
  · have hc : c.number? = some n := by
      rw [← Value.content_eq_number_iff, ← hcontent]
      exact Value.content_eq_number_iff.2 hb
    exact Value.order_numbers limit ha hc
  · cases c with
    | text u =>
      cases hcontent
      exact h
    | _ => cases hcontent
  · have hc : c.isList = true := by
      rw [← Value.isList_of_same hbc]
      exact (Bool.and_eq_true_iff.1 hlists).2
    match a, b, c, hlists, hc with
    | .list i xs, .list j ys, .list k zs, _, _ =>
      rcases Value.order_lists_cases h with ⟨hone, heq⟩ | ⟨l, rfl, hxy⟩
      · -- The first value is the second one, and equal to the third.
        obtain ⟨-, rfl, rfl⟩ := oneList_iff.1 hone
        cases heq
        exact Value.order_of_same hbc
      · rcases Value.same_lists_cases hbc with ⟨hone, -⟩ | ⟨l', hl', ⟨hlen, hyz⟩ | ⟨-, hno⟩⟩
        · obtain ⟨-, rfl, rfl⟩ := oneList_iff.1 hone
          exact h
        · obtain rfl : l = l' := by omega
          exact Value.order_of_items (itemsOrder_congr l xs ys zs hlen hxy hyz) i k
        · cases hno

theorem itemsOrder_congr (limit : Nat) (xs ys zs : List Value) {o : Ordering}
    (hlen : ys.length = zs.length) (h : itemsOrder limit xs ys = .value (.ordered o))
    (hyz : sameItems limit ys zs = .value true) :
    itemsOrder limit xs zs = .value (.ordered o) := by
  match xs, ys, zs, hlen with
  | [], ys, zs, hlen =>
    simp only [itemsOrder] at h ⊢
    rw [← hlen]
    exact h
  | _ :: _, [], [], _ => exact h
  | x :: xs, y :: ys, z :: zs, hlen =>
    simp only [sameItems] at hyz
    obtain ⟨answer, hanswer, hrest⟩ := Outcome.bind_eq_value hyz
    cases answer with
    | false => cases hrest
    | true =>
      simp only [itemsOrder]
      rcases itemsOrder_cons_cases h with ⟨hsame, hmore⟩ | ⟨hsame, horder⟩
      · rw [Value.same_congr limit x y z hsame hanswer]
        exact itemsOrder_congr limit xs ys zs (by simpa using hlen) hmore hrest
      · rw [Value.same_congr limit x y z hsame hanswer]
        exact Value.order_congr limit x y z horder hanswer

end

/-- A value that is equal to the first one can take its place as well. -/
theorem Value.order_congr_left {limit : Nat} {a b c : Value} {o : Ordering}
    (hab : a.same limit b = .value true) (h : b.order limit c = .value (.ordered o)) :
    a.order limit c = .value (.ordered o) := by
  have hback : c.order limit a = .value (.ordered o.swap) := by
    apply Value.order_congr limit c b a
    · rw [Value.order_swap limit b c, h]
      rfl
    · rw [Value.same_comm, hab]
  rw [Value.order_swap limit c a, hback]
  simp [Comparison.swap]

mutual

/-- If one value is less than a second one and that is less than a third one, then the first is less than
the third, and the comparison takes no more depth than the two before. -/
theorem Value.order_trans (limit : Nat) (a b c : Value)
    (hab : a.order limit b = .value (.ordered .lt)) (hbc : b.order limit c = .value (.ordered .lt)) :
    a.order limit c = .value (.ordered .lt) := by
  rcases Value.ordered_cases hab with ⟨m, n, ha, hb, hmn⟩ | ⟨s, t, rfl, rfl, hst⟩ | hxy
  · rcases Value.ordered_cases hbc with ⟨n', k, hb', hc, hnk⟩ | ⟨t, u, rfl, -⟩ | hyz
    · obtain rfl : n = n' := Option.some.inj (hb.symm.trans hb')
      rw [Value.order_numbers limit ha hc, Std.TransCmp.lt_trans hmn hnk]
    · cases hb
    · simp [Value.isList_of_number hb] at hyz
  · rcases Value.ordered_cases hbc with ⟨n, k, hb, -⟩ | ⟨t', u, ht, rfl, htu⟩ | hyz
    · cases hb
    · cases ht
      simp only [Value.order]
      rw [Std.TransCmp.lt_trans hst htu]
      rfl
    · cases hyz
  · have hc : c.isList = true := by
      have hb : b.isList = true := (Bool.and_eq_true_iff.1 hxy).2
      rcases Value.ordered_cases hbc with ⟨n, k, hn, -⟩ | ⟨t, u, rfl, -⟩ | hyz
      · rw [Value.isList_of_number hn] at hb
        cases hb
      · cases hb
      · exact (Bool.and_eq_true_iff.1 hyz).2
    match a, b, c, hxy, hc with
    | .list i xs, .list j ys, .list k zs, _, _ =>
      -- Neither pair is one list, or it would not be less than itself.
      rcases Value.order_lists_cases hab with ⟨-, heq⟩ | ⟨l, rfl, hxy⟩
      · cases heq
      · rcases Value.order_lists_cases hbc with ⟨-, heq⟩ | ⟨l', hl', hyz⟩
        · cases heq
        · obtain rfl : l = l' := by omega
          exact Value.order_of_items (itemsOrder_trans l xs ys zs hxy hyz) i k

theorem itemsOrder_trans (limit : Nat) (xs ys zs : List Value)
    (hxy : itemsOrder limit xs ys = .value (.ordered .lt))
    (hyz : itemsOrder limit ys zs = .value (.ordered .lt)) :
    itemsOrder limit xs zs = .value (.ordered .lt) := by
  match xs, ys, zs with
  | [], [], _ => cases hxy
  | [], _ :: _, [] => cases hyz
  | [], _ :: _, _ :: _ => rfl
  | _ :: _, [], _ => cases hxy
  | _ :: _, _ :: _, [] => cases hyz
  | x :: xs, y :: ys, z :: zs =>
    rcases itemsOrder_cons_cases hxy with ⟨hsame, hmore⟩ | ⟨hsame, horder⟩
    · rcases itemsOrder_cons_cases hyz with ⟨hsame', hmore'⟩ | ⟨hsame', horder'⟩
      · simp only [itemsOrder, Value.same_congr limit x y z hsame hsame']
        exact itemsOrder_trans limit xs ys zs hmore hmore'
      · exact itemsOrder_of_decided (Value.order_congr_left hsame horder') rfl xs zs
    · -- The first items decide between the first two lists, so they do between the first and the third.
      rcases itemsOrder_cons_cases hyz with ⟨hsame', hmore'⟩ | ⟨hsame', horder'⟩
      · exact itemsOrder_of_decided (Value.order_congr limit x y z horder hsame') rfl xs zs
      · exact itemsOrder_of_decided (Value.order_trans limit x y z horder horder') rfl xs zs

end

/-! ## Answers -/

mutual

/-- The comparison comes to an end, unless it is cut off at a limit that neither value nests below. -/
theorem Value.order_cases (limit : Nat) (a b : Value) :
    (∃ c, a.order limit b = .value c) ∨
      a.order limit b = .exhausted ∧ limit ≤ min a.nesting b.nesting := by
  rcases a.comparable_cases b with ⟨m, n, ha, hb⟩ | ⟨s, t, rfl, rfl⟩ | hlists | hnone
  · exact Or.inl ⟨_, Value.order_numbers limit ha hb⟩
  · exact Or.inl ⟨_, rfl⟩
  · match a, b, hlists with
    | .list i xs, .list j ys, _ =>
      simp only [Value.order]
      split
      · exact Or.inl ⟨_, rfl⟩
      · cases limit with
        | zero => exact Or.inr ⟨rfl, Nat.zero_le _⟩
        | succ limit =>
          -- Items that nest too deep are in lists that nest deeper still.
          refine (itemsOrder_cases limit xs ys).imp_right ?_
          rintro ⟨hcut, x, hx, y, hy, hdeep⟩
          refine ⟨hcut, ?_⟩
          have hleft : x.nesting < (Value.list i xs).nesting := Value.nesting_lt_of_mem hx
          have hright : y.nesting < (Value.list j ys).nesting := Value.nesting_lt_of_mem hy
          omega
  · exact Or.inl ⟨_, (hnone limit).1⟩

theorem itemsOrder_cases (limit : Nat) (xs ys : List Value) :
    (∃ c, itemsOrder limit xs ys = .value c) ∨
      itemsOrder limit xs ys = .exhausted ∧ ∃ x ∈ xs, ∃ y ∈ ys, limit ≤ min x.nesting y.nesting := by
  match xs, ys with
  | [], [] | [], _ :: _ | _ :: _, [] => exact Or.inl ⟨_, rfl⟩
  | x :: xs, y :: ys =>
    simp only [itemsOrder]
    rcases Value.same_cases limit x y with ⟨answer, hanswer⟩ | ⟨hcut, hdeep⟩
    · rw [hanswer]
      cases answer with
      | true =>
        refine (itemsOrder_cases limit xs ys).imp_right fun ⟨hcut, x', hx, y', hy, hdeep⟩ => ⟨hcut, ?_⟩
        exact ⟨x', List.mem_cons_of_mem _ hx, y', List.mem_cons_of_mem _ hy, hdeep⟩
      | false =>
        refine (Value.order_cases limit x y).imp_right fun ⟨hcut, hdeep⟩ => ⟨hcut, ?_⟩
        exact ⟨x, List.mem_cons_self .., y, List.mem_cons_self .., hdeep⟩
    · rw [hcut]
      exact Or.inr ⟨rfl, x, List.mem_cons_self .., y, List.mem_cons_self .., hdeep⟩

end

/-! ## Lists -/

section Lists

variable {limit : Nat} {ps qs xs ys : List Value}

/-- Equal items in front do not matter. -/
theorem itemsOrder_append (h : List.Forall₂ (fun p q : Value => p.same limit q = .value true) ps qs)
    (xs ys : List Value) : itemsOrder limit (ps ++ xs) (qs ++ ys) = itemsOrder limit xs ys := by
  induction h with
  | nil => rfl
  | cons hsame _ ih =>
    simp only [List.cons_append, itemsOrder, hsame]
    exact ih

/-- Lists compare as the first items that are not equal. -/
theorem Value.order_first_difference {x y : Value}
    (h : List.Forall₂ (fun p q : Value => p.same limit q = .value true) ps qs)
    (hxy : x.same limit y = .value false) (i j : Option ObjectId) (xs ys : List Value) :
    (Value.list i (ps ++ x :: xs)).order (limit + 1) (.list j (qs ++ y :: ys)) = x.order limit y := by
  have hnot : ¬ oneList i j (ps ++ x :: xs) (qs ++ y :: ys) = true := by
    intro hone
    obtain ⟨-, -, heq⟩ := oneList_iff.1 hone
    obtain ⟨-, hrest⟩ := List.append_inj heq h.length_eq
    cases hrest
    exact Bool.false_ne_true (((Value.same_decides limit x x).answer_iff hxy).2 rfl)
  simp only [Value.order, if_neg hnot]
  rw [itemsOrder_append h]
  simp only [itemsOrder, hxy]
  rfl

/-- If one list ends before there is a difference, the lengths decide. -/
theorem Value.order_lengths (h : List.Forall₂ (fun p q : Value => p.same limit q = .value true) ps qs)
    (hend : xs = [] ∨ ys = []) (i j : Option ObjectId) :
    (Value.list i (ps ++ xs)).order (limit + 1) (.list j (qs ++ ys)) =
      .value (.ordered (compare (ps ++ xs).length (qs ++ ys).length)) := by
  have hlengths : compare (ps ++ xs).length (qs ++ ys).length = compare xs.length ys.length := by
    rw [List.length_append, List.length_append, h.length_eq]
    simp only [Nat.compare_eq_ite_lt, Nat.add_lt_add_iff_left]
  apply Value.order_of_items
  rw [itemsOrder_append h, hlengths]
  rcases hend with rfl | rfl
  · simp only [itemsOrder]
    rfl
  · cases xs <;> rfl

end Lists

/-! ## The primitives -/

namespace Primitive

section Calls

variable {limit : Nat} {a b : Value} {o : Ordering} {left right : Kind}

theorem call_ordering (r : Relation) (limit : Nat) (id : ObjectId) (a b : Value) :
    r.primitive.call limit id [a, b] =
      (a.order limit b >>= Comparison.verdict r) >>= fun answer => pure (.bool answer) := by
  rw [← Value.holds_eq_order]
  cases r <;> rfl

theorem call_of_ordered (h : a.order limit b = .value (.ordered o)) (r : Relation) (id : ObjectId) :
    r.primitive.call limit id [a, b] = .value (.bool (r.admits o)) := by
  rw [call_ordering, h]
  rfl

theorem call_of_unordered (h : a.order limit b = .value (.unordered left right)) (r : Relation)
    (id : ObjectId) :
    r.primitive.call limit id [a, b] = .fault (.incomparable r.primitive left right) := by
  rw [call_ordering, h]
  rfl

theorem call_of_cut (h : a.order limit b = .exhausted) (r : Relation) (id : ObjectId) :
    r.primitive.call limit id [a, b] = .exhausted := by
  rw [call_ordering, h]
  rfl

end Calls

/-- The answers of the four order primitives and of equality on two values, both ways round, are those
of a linear order: exactly one of less, equal and greater is the case, and the others follow from it. -/
structure Linear (limit : Nat) (id : ObjectId) (a b : Value) (lt eq gt : Bool) : Prop where
  exactly_one : lt.toNat + eq.toNat + gt.toNat = 1
  less : Primitive.less.call limit id [a, b] = .value (.bool lt) ∧
    Primitive.less.call limit id [b, a] = .value (.bool gt)
  greater : Primitive.greater.call limit id [a, b] = .value (.bool gt) ∧
    Primitive.greater.call limit id [b, a] = .value (.bool lt)
  equal : Primitive.eqNumber.call limit id [a, b] = .value (.bool eq)
  lessEq : Primitive.lessEq.call limit id [a, b] = .value (.bool (lt || eq)) ∧
    Primitive.lessEq.call limit id [b, a] = .value (.bool (gt || eq))
  greaterEq : Primitive.greaterEq.call limit id [a, b] = .value (.bool !lt) ∧
    Primitive.greaterEq.call limit id [b, a] = .value (.bool !gt)

theorem linear_of_ordered {limit : Nat} {a b : Value} {o : Ordering}
    (h : a.order limit b = .value (.ordered o)) (id : ObjectId) :
    Linear limit id a b o.isLT o.isEq o.isGT := by
  have hequal : Primitive.eqNumber.call limit id [a, b] = .value (.bool o.isEq) := by
    rw [call_equality (by decide), Value.same_of_order limit a b h]
    rfl
  have hforth := fun r => call_of_ordered h r id
  have hback := fun r => call_of_ordered (o := o.swap) (by rw [Value.order_swap, h]; rfl) r id
  cases o <;>
    exact ⟨rfl, ⟨hforth .less, hback .less⟩, ⟨hforth .greater, hback .greater⟩, hequal,
      ⟨hforth .lessEq, hback .lessEq⟩, ⟨hforth .greaterEq, hback .greaterEq⟩⟩

/-- A value is less than another one exactly if the comparison says so. -/
theorem call_less_iff {limit : Nat} {id : ObjectId} {a b : Value} :
    Primitive.less.call limit id [a, b] = .value (.bool true) ↔
      a.order limit b = .value (.ordered .lt) := by
  refine ⟨fun h => ?_, fun h => call_of_ordered h .less id⟩
  rcases Value.order_cases limit a b with ⟨c, hc⟩ | ⟨hcut, -⟩
  · cases c with
    | ordered o =>
      have hlt : Outcome.value (Value.bool o.isLT) = .value (.bool true) :=
        (call_of_ordered hc .less id).symm.trans h
      cases o with
      | lt => exact hc
      | _ => cases hlt
    | unordered left right => cases (call_of_unordered hc .less id).symm.trans h
  · cases (call_of_cut hcut .less id).symm.trans h

/-- What is less than something less is less, and to say so takes no more depth than the two before. -/
theorem call_less_trans {l₁ l₂ limit : Nat} {id : ObjectId} {a b c : Value}
    (hab : Primitive.less.call l₁ id [a, b] = .value (.bool true))
    (hbc : Primitive.less.call l₂ id [b, c] = .value (.bool true)) (hlimit : max l₁ l₂ ≤ limit) :
    Primitive.less.call limit id [a, c] = .value (.bool true) := by
  -- The answers stay at the larger limit, where the three values are compared as data.
  have hstays : ∀ {l v w}, l ≤ limit → Primitive.less.call l id [v, w] = .value (.bool true) →
      v.order limit w = .value (.ordered .lt) := by
    intro l v w hl h
    have hlarge : Primitive.less.call limit id [v, w] = Outcome.ofExcept (.ok (.bool true)) :=
      (call_approx hl id .less [v, w]).eq_ofExcept h
    exact call_less_iff.1 hlarge
  apply call_less_iff.2
  apply Value.order_trans limit a b c
  · exact hstays (Nat.le_trans (Nat.le_max_left ..) hlimit) hab
  · exact hstays (Nat.le_trans (Nat.le_max_right ..) hlimit) hbc

/-- The four order primitives agree with each other and with equality on all values. At every limit the
comparisons of two values, with any of the four and either way round, are all cut off, or they all fail
because two values of these types have no order, or they all have the answers of a linear order; and they
can be cut off only if neither value nests below the limit. What is less than something less is less: this
takes no more depth. Booleans count as 0 and 1, lists compare as the first items that are not equal or
else by their lengths, texts compare as texts, and nothing else has an order. -/
theorem ordering_coherent (id : ObjectId) :
    (∀ limit a b,
      (limit ≤ min a.nesting b.nesting ∧ ∀ r : Relation,
        r.primitive.call limit id [a, b] = .exhausted ∧ r.primitive.call limit id [b, a] = .exhausted) ∨
      (∃ left right, ∀ r : Relation,
        r.primitive.call limit id [a, b] = .fault (.incomparable r.primitive left right) ∧
        r.primitive.call limit id [b, a] = .fault (.incomparable r.primitive right left) ∧
        (Fault.incomparable r.primitive left right).kind = .wrongType) ∨
      ∃ lt eq gt, Linear limit id a b lt eq gt) ∧
    (∀ l₁ l₂ limit a b c, Primitive.less.call l₁ id [a, b] = .value (.bool true) →
      Primitive.less.call l₂ id [b, c] = .value (.bool true) → max l₁ l₂ ≤ limit →
      Primitive.less.call limit id [a, c] = .value (.bool true)) ∧
    (∀ limit (r : Relation) a b m n, a.CountsAs m → b.CountsAs n →
      r.primitive.call limit id [a, b] = .value (.bool (r.admits (compare m n)))) ∧
    (∀ limit (r : Relation) i j ps qs x y xs ys,
      List.Forall₂ (fun p q => Primitive.eqNumber.call limit id [p, q] = .value (.bool true)) ps qs →
      Primitive.eqNumber.call limit id [x, y] = .value (.bool false) →
      r.primitive.call (limit + 1) id [.list i (ps ++ x :: xs), .list j (qs ++ y :: ys)] =
        r.primitive.call limit id [x, y]) ∧
    (∀ limit (r : Relation) i j ps qs xs ys,
      List.Forall₂ (fun p q => Primitive.eqNumber.call limit id [p, q] = .value (.bool true)) ps qs →
      xs = [] ∨ ys = [] →
      r.primitive.call (limit + 1) id [.list i (ps ++ xs), .list j (qs ++ ys)] =
        .value (.bool (r.admits (compare (ps ++ xs).length (qs ++ ys).length)))) ∧
    (∀ limit (r : Relation) s t, r.primitive.call limit id [.text s, .text t] =
      .value (.bool (r.admits (compare s t)))) ∧
    ∀ limit (r : Relation) a b, (∀ m, ¬ a.CountsAs m) ∨ (∀ n, ¬ b.CountsAs n) →
      ¬ (a.kind = .text ∧ b.kind = .text) → ¬ (a.kind = .list ∧ b.kind = .list) →
      r.primitive.call limit id [a, b] = .fault (.incomparable r.primitive a.kind b.kind) := by
  have hsame : ∀ {limit} {v w : Value} {answer : Bool},
      Primitive.eqNumber.call limit id [v, w] = .value (.bool answer) ↔ v.same limit w = .value answer := by
    intro limit v w answer
    rw [call_equality (by decide)]
    exact Outcome.bind_bool_eq_value_iff
  refine ⟨?_, ?_, ?_, ?_, ?_, ?_, ?_⟩
  · intro limit a b
    rcases Value.order_cases limit a b with ⟨c, hc⟩ | ⟨hcut, hdeep⟩
    · cases c with
      | ordered o => exact Or.inr (Or.inr ⟨_, _, _, linear_of_ordered hc id⟩)
      | unordered left right =>
        have hback : b.order limit a = .value (.unordered right left) := by
          rw [Value.order_swap, hc]
          rfl
        refine Or.inr (Or.inl ⟨left, right, fun r => ⟨?_, ?_, rfl⟩⟩)
        · exact call_of_unordered hc r id
        · exact call_of_unordered hback r id
    · have hback : b.order limit a = .exhausted := by
        rw [Value.order_swap, hcut]
        rfl
      exact Or.inl ⟨hdeep, fun r => ⟨call_of_cut hcut r id, call_of_cut hback r id⟩⟩
  · exact fun l₁ l₂ limit a b c => call_less_trans
  · intro limit r a b m n ha hb
    have horder := Value.order_numbers limit (Value.countsAs_iff.1 ha) (Value.countsAs_iff.1 hb)
    exact call_of_ordered horder r id
  · intro limit r i j ps qs x y xs ys hequal hxy
    rw [call_ordering, call_ordering,
      Value.order_first_difference (hequal.imp fun _ _ => hsame.1) (hsame.1 hxy)]
  · intro limit r i j ps qs xs ys hequal hend
    exact call_of_ordered (Value.order_lengths (hequal.imp fun _ _ => hsame.1) hend i j) r id
  · intro limit r s t
    exact call_of_ordered rfl r id
  · intro limit r a b hnumbers htexts hlists
    rcases a.comparable_cases b with ⟨m, n, ha, hb⟩ | ⟨s, t, rfl, rfl⟩ | hl | hnone
    · rw [← Value.countsAs_iff] at ha hb
      rcases hnumbers with hnumbers | hnumbers
      · exact absurd ha (hnumbers m)
      · exact absurd hb (hnumbers n)
    · exact absurd ⟨rfl, rfl⟩ htexts
    · rw [Bool.and_eq_true] at hl
      exact absurd ⟨Value.kind_of_isList hl.1, Value.kind_of_isList hl.2⟩ hlists
    · exact call_of_unordered (hnone limit).1 r id

/-- `(s #f)` is less than `(s 1)`, and that less than `(s #t ())`, so the first is less than the third; the
symbols in front are equal and are passed over, and `(s s)` and `(s 1)` meet a symbol and a number. -/
theorem ordering_coherent_nested :
    (Primitive.less.call 2 0 [.literal [.symbol "s", .bool false], .literal [.symbol "s", .int 1]] =
        .value (.bool true) ∧
      Primitive.less.call 3 0
          [.literal [.symbol "s", .int 1], .literal [.symbol "s", .bool true, .literal []]] =
        .value (.bool true) ∧
      Primitive.less.call 3 0
          [.literal [.symbol "s", .bool false], .literal [.symbol "s", .bool true, .literal []]] =
        .value (.bool true)) ∧
    Primitive.less.call 2 0 [.literal [.symbol "s", .symbol "s"], .literal [.symbol "s", .int 1]] =
      .fault (.incomparable .less .symbol .int) := by
  obtain ⟨-, htrans, -, hdiffer, -, -, hnone⟩ := ordering_coherent 0
  have hfirst : Primitive.less.call 2 0
      [.literal [.symbol "s", .bool false], .literal [.symbol "s", .int 1]] = .value (.bool true) := rfl
  have hsecond : Primitive.less.call 3 0
      [.literal [.symbol "s", .int 1], .literal [.symbol "s", .bool true, .literal []]] =
        .value (.bool true) := rfl
  refine ⟨⟨hfirst, hsecond, htrans 2 3 3 _ _ _ hfirst hsecond (by decide)⟩, ?_⟩
  exact (hdiffer 1 .less none none [.symbol "s"] [.symbol "s"] (.symbol "s") (.int 1) [] []
    (.cons rfl .nil) rfl).trans (hnone 1 .less _ _ (.inl nofun) (by decide) (by decide))

end Primitive

end Lisplet
