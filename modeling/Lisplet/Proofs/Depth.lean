import Lisplet.Primitive.Call

/-!
# Depth limits

A computation under a depth limit can be cut off, and that is all the limit can do to it: with more
depth it ends as before, unless it was cut off before. This module says so for descriptions, equality,
order and the calls of primitives, and it says what such a computation comes to when no limit is set.

Main definitions: `Outcome.Approx`, `Settles`. Main statements: `Value.describe_approx`,
`Value.same_approx`, `Value.holds_approx`, `Primitive.call_approx`, `Settles.of_approx`.
-/

namespace Lisplet

/-! ## Outcomes that were cut off -/

/-- The first outcome approximates the second: it is the same, or it was cut off. -/
def Outcome.Approx {α : Type} (o o' : Outcome α) : Prop :=
  o = .exhausted ∨ o = o'

namespace Outcome.Approx

variable {α β : Type}

theorem refl (o : Outcome α) : o.Approx o :=
  Or.inr rfl

theorem exhausted (o : Outcome α) : Outcome.exhausted.Approx o :=
  Or.inl rfl

/-- Going on with approximations gives an approximation. -/
theorem bind {o o' : Outcome α} {f g : α → Outcome β} (h : o.Approx o')
    (hf : ∀ a, (f a).Approx (g a)) : (o >>= f).Approx (o' >>= g) := by
  rcases h with rfl | rfl
  · exact exhausted _
  · cases o with
    | value a => exact hf a
    | fault e => exact refl _
    | exhausted => exact refl _

/-- Going on in the same way with an approximation gives an approximation. -/
theorem bind_left {o o' : Outcome α} (f : α → Outcome β) (h : o.Approx o') :
    (o >>= f).Approx (o' >>= f) :=
  h.bind fun _ => refl _

/-- An outcome that was not cut off approximates itself only. -/
theorem eq_ofExcept {o o' : Outcome α} {r : Except Fault α} (h : o.Approx o')
    (ho : o = Outcome.ofExcept r) : o' = Outcome.ofExcept r := by
  rcases h with rfl | rfl
  · cases r <;> cases ho
  · exact ho

end Outcome.Approx

/-- A sequence that gives a value: both parts give one. -/
theorem Outcome.bind_eq_value {α β : Type} {o : Outcome α} {f : α → Outcome β} {b : β}
    (h : (o >>= f) = .value b) : ∃ a, o = .value a ∧ f a = .value b := by
  cases o with
  | value a => exact ⟨a, rfl, h⟩
  | fault e => cases h
  | exhausted => cases h

/-! ## Descriptions -/

mutual

/-- A description with more depth is the same, unless it was cut off. -/
theorem Value.describe_approx {n m : Nat} (h : n ≤ m) (v : Value) :
    (v.describe n).Approx (v.describe m) := by
  match v with
  | .noValue | .bool _ | .int _ | .symbol _ | .primitive .. | .text _ =>
    simp only [Value.describe]
    exact .refl _
  | .list _ items =>
    match n, m with
    | 0, _ =>
      simp only [Value.describe]
      exact .exhausted _
    | n + 1, m + 1 =>
      simp only [Value.describe]
      exact (describeAll_approx (Nat.le_of_succ_le_succ h) items).bind_left _
  | .closure _ formals _ _ =>
    match n, m with
    | 0, _ =>
      simp only [Value.describe]
      exact .exhausted _
    | n + 1, m + 1 =>
      simp only [Value.describe]
      exact (titleAll_approx (Nat.le_of_succ_le_succ h) formals).bind_left _

/-- The descriptions of values with more depth are the same, unless they were cut off. -/
theorem describeAll_approx {n m : Nat} (h : n ≤ m) (vs : List Value) :
    (describeAll n vs).Approx (describeAll m vs) := by
  match vs with
  | [] =>
    simp only [describeAll]
    exact .refl _
  | v :: vs =>
    simp only [describeAll]
    exact (v.describe_approx h).bind fun _ => (describeAll_approx h vs).bind_left _

/-- The titles of values with more depth are the same, unless they were cut off. -/
theorem titleAll_approx {n m : Nat} (h : n ≤ m) (vs : List Value) :
    (titleAll n vs).Approx (titleAll m vs) := by
  match vs with
  | [] =>
    simp only [titleAll]
    exact .refl _
  | v :: vs =>
    simp only [titleAll]
    cases v.ownText? with
    | some s => exact (titleAll_approx h vs).bind_left _
    | none => exact (v.describe_approx h).bind fun _ => (titleAll_approx h vs).bind_left _

end

/-! ## Equality and order -/

/-- Only the comparison of two lists looks at the depth limit. -/
theorem Value.same_eq_of_not_lists {n m : Nat} {a b : Value}
    (h : (a.isList && b.isList) = false) : a.same n b = a.same m b := by
  cases a <;> cases b <;> first | rfl | cases h

mutual

/-- A test of equality with more depth gives the same answer, unless it was cut off. -/
theorem Value.same_approx {n m : Nat} (h : n ≤ m) (a b : Value) :
    (a.same n b).Approx (a.same m b) := by
  cases hl : a.isList && b.isList with
  | false => exact Or.inr (Value.same_eq_of_not_lists hl)
  | true =>
    match a, b, hl with
    | .list i xs, .list j ys, _ =>
      -- A list is equal to itself at no cost, so the limit matters only for two different lists.
      by_cases hone : oneList i j xs ys = true
      · simp only [Value.same, hone, if_true]
        exact .refl _
      · match n, m with
        | 0, _ =>
          simp only [Value.same, hone]
          exact .exhausted _
        | n + 1, m + 1 =>
          simp only [Value.same, hone]
          by_cases hlen : xs.length = ys.length
          · simp only [hlen, if_true]
            exact sameItems_approx (Nat.le_of_succ_le_succ h) xs ys
          · simp only [hlen]
            exact .refl _

/-- A test of equality of items with more depth gives the same answer, unless it was cut off. -/
theorem sameItems_approx {n m : Nat} (h : n ≤ m) (xs ys : List Value) :
    (sameItems n xs ys).Approx (sameItems m xs ys) := by
  match xs, ys with
  | x :: xs, y :: ys =>
    simp only [sameItems]
    refine (x.same_approx h y).bind fun b => ?_
    cases b with
    | true => exact sameItems_approx h xs ys
    | false => exact .refl _
  | [], _ | _ :: _, [] =>
    simp only [sameItems]
    exact .refl _

end

/-- Only the ordering of two lists looks at the depth limit. -/
theorem Value.holds_eq_of_not_lists {n m : Nat} {r : Relation} {a b : Value}
    (h : (a.isList && b.isList) = false) : a.holds n r b = a.holds m r b := by
  cases a <;> cases b <;> first | rfl | cases h

mutual

/-- A test of order with more depth gives the same answer, unless it was cut off. -/
theorem Value.holds_approx {n m : Nat} (h : n ≤ m) (r : Relation) (a b : Value) :
    (a.holds n r b).Approx (a.holds m r b) := by
  cases hl : a.isList && b.isList with
  | false => exact Or.inr (Value.holds_eq_of_not_lists hl)
  | true =>
    match a, b, hl with
    | .list i xs, .list j ys, _ =>
      by_cases hone : oneList i j xs ys = true
      · simp only [Value.holds, hone, if_true]
        exact .refl _
      · match n, m with
        | 0, _ =>
          simp only [Value.holds, hone]
          exact .exhausted _
        | n + 1, m + 1 =>
          simp only [Value.holds, hone]
          exact itemsHold_approx (Nat.le_of_succ_le_succ h) r xs ys

/-- A test of order of items with more depth gives the same answer, unless it was cut off. -/
theorem itemsHold_approx {n m : Nat} (h : n ≤ m) (r : Relation) (xs ys : List Value) :
    (itemsHold n r xs ys).Approx (itemsHold m r xs ys) := by
  match xs, ys with
  | x :: xs, y :: ys =>
    simp only [itemsHold]
    -- Equality skips the items in front; the first pair that differs is put in order.
    refine (x.same_approx h y).bind fun b => ?_
    cases b with
    | true => exact itemsHold_approx h r xs ys
    | false => exact x.holds_approx h r y
  | [], _ | _ :: _, [] =>
    simp only [itemsHold]
    exact .refl _

end

/-! ## Primitives -/

namespace Primitive

variable {n m : Nat}

private theorem integer_approx (h : n ≤ m) (p : Primitive) (v : Value) :
    (p.integer n v).Approx (p.integer m v) := by
  cases v with
  | int _ => exact .refl _
  | _ => exact (Value.describe_approx h _).bind_left _

private theorem arithmetic_approx (h : n ≤ m) (p : Primitive) (f : Int → Int → Outcome Int)
    (a b : Value) : (p.arithmetic n f a b).Approx (p.arithmetic m f a b) :=
  (p.integer_approx h a).bind fun _ => (p.integer_approx h b).bind_left _

private theorem items_approx (h : n ≤ m) (p : Primitive) (v : Value) :
    (p.items n v).Approx (p.items m v) := by
  cases v with
  | list _ _ => exact .refl _
  | _ => exact (Value.describe_approx h _).bind_left _

/-- A call of a primitive with more depth ends in the same way, unless it was cut off. -/
theorem call_approx (h : n ≤ m) (id : ObjectId) (p : Primitive) (args : List Value) :
    (p.call n id args).Approx (p.call m id args) := by
  -- The arity of an operation does not depend on the limit, so only calls with the right number of
  -- arguments have to be looked at.
  match args with
  | [] => cases p <;> exact .refl _
  | [a] =>
    cases p <;> first
      | exact .refl _
      | exact (items_approx h _ a).bind_left _
  | [a, b] =>
    cases p <;> first
      | exact .refl _
      | exact arithmetic_approx h _ _ a b
      | exact (a.same_approx h b).bind_left _
      | exact (a.holds_approx h _ b).bind_left _
  | _ :: _ :: _ :: _ => cases p <;> exact .refl _

end Primitive

/-! ## Without a limit -/

/-- What a computation under a depth limit comes to when the limit is large enough. -/
def Settles {α : Type} (x : Nat → Outcome α) (r : Except Fault α) : Prop :=
  ∃ enough, ∀ n, enough ≤ n → x n = Outcome.ofExcept r

namespace Settles

variable {α : Type} {x : Nat → Outcome α} {r r' : Except Fault α}

/-- One limit at which the computation is not cut off settles it, if more depth does not change how
it ends. -/
theorem of_approx (mono : ∀ {n m}, n ≤ m → (x n).Approx (x m)) {n : Nat}
    (h : x n = Outcome.ofExcept r) : Settles x r :=
  ⟨n, fun _ hm => (mono hm).eq_ofExcept h⟩

end Settles

end Lisplet
