import Lisplet.Proofs.Failures
import Lisplet.Proofs.Ordering
import Mathlib.Data.Int.Basic

/-!
# What calls of primitives come to

A call of a primitive counts its operands, then looks at their types from left to right, and then
computes. So there are four ways to fail, in this order of precedence: the wrong number of operands, an
operand of the wrong type, a divisor that is zero, and two values that have no order. A fault about the
type of an operand shows the operand, and only there an integer that cannot be written gets in the way.

Lists are joined and not nested by `cons`, which makes it associative on all values.

Main definitions: `Primitive.accepts`, `Primitive.Conduct`, `IsQuotient`. Main statements:
`Primitive.conduct`, `Primitive.call_exact`.
-/

namespace Lisplet

/-! ## The depth of a description -/

mutual

/-- How deep the description of a value nests: in the items of lists and in the parameters of
closures. -/
def Value.height : Value → Nat
  | .list _ items => heightAll items + 1
  | .closure _ formals _ _ => heightAll formals + 1
  | _ => 0

/-- How deep the descriptions of values nest. -/
def heightAll : List Value → Nat
  | [] => 0
  | v :: vs => max v.height (heightAll vs)

end

theorem Outcome.bind_eq_exhausted {α β : Type} {o : Outcome α} {g : α → Outcome β}
    (h : (o >>= g) = .exhausted) : o = .exhausted ∨ ∃ a, o = .value a ∧ g a = .exhausted := by
  cases o with
  | value a => exact Or.inr ⟨a, rfl, h⟩
  | fault e => cases h
  | exhausted => exact Or.inl rfl

mutual

/-- A description is cut off only below the height of the value. -/
theorem Value.lt_height_of_describe {limit : Nat} (v : Value) (h : v.describe limit = .exhausted) :
    limit < v.height := by
  cases v with
  | int n =>
    rw [Value.describe] at h
    rcases Outcome.bind_eq_exhausted h with h | ⟨_, -, h⟩
    · unfold writeInt at h
      split at h <;> cases h
    · cases h
  | list id items =>
    cases limit with
    | zero => exact Nat.succ_pos _
    | succ limit =>
      rcases Outcome.bind_eq_exhausted h with h | ⟨_, -, h⟩
      · exact Nat.succ_lt_succ (lt_heightAll_of_describeAll items h)
      · cases h
  | closure id formals body i =>
    cases limit with
    | zero => exact Nat.succ_pos _
    | succ limit =>
      rcases Outcome.bind_eq_exhausted h with h | ⟨_, -, h⟩
      · exact Nat.succ_lt_succ (lt_heightAll_of_titleAll formals h)
      · cases h
  | noValue | bool | symbol | primitive | text => cases h

theorem lt_heightAll_of_describeAll {limit : Nat} (vs : List Value)
    (h : describeAll limit vs = .exhausted) : limit < heightAll vs := by
  match vs with
  | [] => cases h
  | v :: vs =>
    rw [describeAll] at h
    rcases Outcome.bind_eq_exhausted h with h | ⟨_, -, h⟩
    · exact Nat.lt_of_lt_of_le (v.lt_height_of_describe h) (Nat.le_max_left ..)
    · rcases Outcome.bind_eq_exhausted h with h | ⟨_, -, h⟩
      · exact Nat.lt_of_lt_of_le (lt_heightAll_of_describeAll vs h) (Nat.le_max_right ..)
      · cases h

theorem lt_heightAll_of_titleAll {limit : Nat} (vs : List Value)
    (h : titleAll limit vs = .exhausted) : limit < heightAll vs := by
  match vs with
  | [] => cases h
  | v :: vs =>
    rw [titleAll_cons] at h
    rcases Outcome.bind_eq_exhausted h with h | ⟨_, -, h⟩
    · -- A title that is no description has no depth.
      unfold Value.title at h
      split at h
      · cases h
      · exact Nat.lt_of_lt_of_le (v.lt_height_of_describe h) (Nat.le_max_left ..)
    · rcases Outcome.bind_eq_exhausted h with h | ⟨_, -, h⟩
      · exact Nat.lt_of_lt_of_le (lt_heightAll_of_titleAll vs h) (Nat.le_max_right ..)
      · cases h

end

mutual

theorem Value.nesting_le_height (v : Value) : v.nesting ≤ v.height := by
  cases v with
  | list id items => exact nestingAll_le_heightAll items
  | _ => exact Nat.zero_le _

theorem nestingAll_le_heightAll (vs : List Value) : nestingAll vs ≤ heightAll vs + 1 := by
  match vs with
  | [] => exact Nat.zero_le _
  | v :: vs =>
    have hfirst := v.nesting_le_height
    have hrest := nestingAll_le_heightAll vs
    simp only [nestingAll, heightAll]
    omega

end

/-! ## Quotients -/

/-- The quotient that leaves a remainder which is smaller than the divisor, and has its sign if it is
not zero. -/
structure IsQuotient (m n q r : Int) : Prop where
  sum : m = n * q + r
  small : r.natAbs < n.natAbs
  sign : r = 0 ∨ r.sign = n.sign

/-- The remainders that are permitted lie between zero and the divisor, on either side of zero. -/
theorem remainder_iff {n r : Int} :
    (r.natAbs < n.natAbs ∧ (r = 0 ∨ r.sign = n.sign)) ↔ (0 ≤ r ∧ r < n) ∨ (n < r ∧ r ≤ 0) := by
  have hcases : ∀ x : Int, (0 < x ∧ x.sign = 1) ∨ (x = 0 ∧ x.sign = 0) ∨ (x < 0 ∧ x.sign = -1) := by
    intro x
    rcases Int.lt_trichotomy x 0 with h | rfl | h
    · exact Or.inr (Or.inr ⟨h, Int.sign_eq_neg_one_of_neg h⟩)
    · exact Or.inr (Or.inl ⟨rfl, rfl⟩)
    · exact Or.inl ⟨h, Int.sign_eq_one_of_pos h⟩
  have hr := hcases r
  have hn := hcases n
  omega

/-- Rounding toward negative infinity gives the quotient. -/
theorem isQuotient_fdiv (m : Int) {n : Int} (hn : n ≠ 0) : IsQuotient m n (m.fdiv n) (m.fmod n) := by
  have hrange : (0 ≤ m.fmod n ∧ m.fmod n < n) ∨ (n < m.fmod n ∧ m.fmod n ≤ 0) := by
    rcases Int.lt_or_gt_of_ne hn with hneg | hpos
    · -- Turning the signs of both operands turns the sign of the remainder.
      have hturn := Int.neg_fmod_neg m n
      have hlow := Int.fmod_nonneg_of_pos (-m) (Int.neg_pos_of_neg hneg)
      have hhigh := Int.fmod_lt_of_pos (-m) (Int.neg_pos_of_neg hneg)
      omega
    · exact Or.inl ⟨Int.fmod_nonneg_of_pos m hpos, Int.fmod_lt_of_pos m hpos⟩
  obtain ⟨hsmall, hsign⟩ := remainder_iff.2 hrange
  exact ⟨(Int.mul_fdiv_add_fmod m n).symm, hsmall, hsign⟩

theorem IsQuotient.unique {m n q r q' r' : Int} (h : IsQuotient m n q r) (h' : IsQuotient m n q' r') :
    q' = q ∧ r' = r := by
  have hrange := remainder_iff.1 ⟨h.small, h.sign⟩
  have hrange' := remainder_iff.1 ⟨h'.small, h'.sign⟩
  have hsum : n * q + r = n * q' + r' := h.sum.symm.trans h'.sum
  -- The remainders differ by a multiple of the divisor, and by less than the divisor.
  have hdvd : n ∣ r' - r := by
    refine ⟨q - q', ?_⟩
    rw [Int.mul_sub]
    omega
  have hzero : r' - r = 0 := Int.eq_zero_of_dvd_of_natAbs_lt_natAbs hdvd (by omega)
  have hproduct : n * q' = n * q := by omega
  exact ⟨Int.eq_of_mul_eq_mul_left (by omega) hproduct, by omega⟩

/-! ## The ways a call can go -/

/-- The length of a list; everything else counts as one item. -/
def Value.size : Value → Nat
  | .list _ items => items.length
  | _ => 1

namespace Primitive

/-- Whether a value has the type that a primitive wants of its operands. -/
def accepts (p : Primitive) (v : Value) : Bool :=
  match p with
  | .add | .sub | .mul | .div => v.kind == .int
  | .length | .car | .cdr => v.isList
  | _ => true

/-- The first operand that has the wrong type. It is the one that a message shows. -/
def refused? (p : Primitive) (args : List Value) : Option Value :=
  args.find? fun v => !p.accepts v

/-- The primitive takes that many operands. -/
def Fits (p : Primitive) (args : List Value) : Prop :=
  ∀ n, p.arity = some n → args.length = n

/-- What a call comes to, by the order in which its operands are looked at. -/
inductive Conduct (limit : Nat) : Primitive → List Value → Outcome Value → Prop where
  | miscounted {p : Primitive} {args : List Value} {n : Nat} :
      p.arity = some n → args.length ≠ n →
      Conduct limit p args (.fault (.arity (some p.name) n args.length))
  | refused {p : Primitive} {args : List Value} {v : Value} {make : String → Fault} :
      p.Fits args → p.refused? args = some v → p.Rejects v make →
      Conduct limit p args (v.describe limit >>= fun shown => .fault (make shown))
  | divisionByZero {m : Int} : Conduct limit .div [.int m, .int 0] (.fault (.divisionByZero .div))
  | equality {p : Primitive} {a b : Value} : p ∈ [.eqNumber, .eqIdentity, .eqStructure] →
      Conduct limit p [a, b] (a.same limit b >>= fun answer => pure (.bool answer))
  | ordering {r : Relation} {a b : Value} :
      Conduct limit r.primitive [a, b]
        ((a.order limit b >>= Comparison.verdict r) >>= fun answer => pure (.bool answer))
  | value {p : Primitive} {args : List Value} {v : Value} :
      p.Fits args → p.refused? args = none → Conduct limit p args (.value v)

section Calls

variable {limit : Nat} {id : ObjectId} {p : Primitive} {args : List Value} {o : Outcome Value}

theorem call_of_length_ne {n : Nat} (h : p.arity = some n) (hne : args.length ≠ n) :
    p.call limit id args = .fault (.arity (some p.name) n args.length) := by
  have hop : ((p.operation limit id).arity) = some n := by rw [operation_arity, h]
  unfold call
  generalize p.operation limit id = op at hop
  cases op with
  | unary f =>
    cases hop
    rcases args with _ | ⟨a, _ | ⟨b, rest⟩⟩
    · rfl
    · exact absurd rfl hne
    · rfl
  | binary f =>
    cases hop
    rcases args with _ | ⟨a, _ | ⟨b, _ | ⟨c, rest⟩⟩⟩
    · rfl
    · rfl
    · exact absurd rfl hne
    · rfl
  | variadic f => cases hop

theorem accepts_eq_false_of_rejects {v : Value} {make : String → Fault} (h : p.Rejects v make) :
    p.accepts v = false := by
  cases h with
  | notInteger hp hv =>
    have hkind : (v.kind == .int) = false := by
      cases v with
      | int n => exact absurd rfl (hv n)
      | _ => rfl
    simp only [List.mem_cons, List.not_mem_nil, or_false] at hp
    rcases hp with rfl | rfl | rfl | rfl <;> exact hkind
  | notList hp hv =>
    simp only [List.mem_cons, List.not_mem_nil, or_false] at hp
    rcases hp with rfl | rfl | rfl <;> exact hv

theorem accepts_int (hp : p ∈ [.add, .sub, .mul, .div]) (n : Int) : p.accepts (.int n) = true := by
  simp only [List.mem_cons, List.not_mem_nil, or_false] at hp
  rcases hp with rfl | rfl | rfl | rfl <;> rfl

/-- An operand of arithmetic is an integer, or it is shown as none. -/
theorem integer_cases (hp : p ∈ [.add, .sub, .mul, .div]) (limit : Nat) (v : Value) :
    (∃ n, v = .int n) ∨ p.Rejects v (.notInteger p) ∧
      p.integer limit v = v.describe limit >>= fun shown => .fault (.notInteger p shown) := by
  cases v with
  | int n => exact Or.inl ⟨n, rfl⟩
  | _ => exact Or.inr ⟨.notInteger hp (by simp), rfl⟩

/-- Arithmetic is done on two integers, or the first operand that is none is shown. -/
theorem arithmetic_cases (hp : p ∈ [.add, .sub, .mul, .div]) (limit : Nat) (f : Int → Int → Outcome Int)
    (a b : Value) :
    (∃ m n, a = .int m ∧ b = .int n) ∨
      ∃ v, p.refused? [a, b] = some v ∧ p.Rejects v (.notInteger p) ∧
        p.arithmetic limit f a b = v.describe limit >>= fun shown => .fault (.notInteger p shown) := by
  rcases integer_cases hp limit a with ⟨m, rfl⟩ | ⟨hrejects, hshown⟩
  · rcases integer_cases hp limit b with ⟨n, rfl⟩ | ⟨hrejects, hshown⟩
    · exact Or.inl ⟨m, n, rfl, rfl⟩
    · refine Or.inr ⟨b, ?_, hrejects, ?_⟩
      · simp [refused?, accepts_int hp, accepts_eq_false_of_rejects hrejects]
      · have hrest : p.arithmetic limit f (.int m) b = p.integer limit b >>= fun n =>
            f m n >>= fun r => pure (Value.int r) := rfl
        rw [hrest, hshown]
        cases b.describe limit <;> rfl
  · refine Or.inr ⟨a, ?_, hrejects, ?_⟩
    · simp [refused?, accepts_eq_false_of_rejects hrejects]
    · rw [arithmetic, hshown]
      cases a.describe limit <;> rfl

/-- Arithmetic goes one of the ways, if it does on integers. -/
theorem conduct_of_arithmetic (hp : p ∈ [.add, .sub, .mul, .div]) (hfits : p.Fits args)
    {f : Int → Int → Outcome Int} {a b : Value} (hargs : args = [a, b])
    (hf : ∀ m n, (∃ r, f m n = .value r) ∨ n = 0 ∧ p = .div ∧ f m n = .fault (.divisionByZero .div)) :
    Conduct limit p args (p.arithmetic limit f a b) := by
  subst hargs
  rcases arithmetic_cases hp limit f a b with ⟨m, n, rfl, rfl⟩ | ⟨v, hv, hrejects, hcall⟩
  · have hints : p.arithmetic limit f (.int m) (.int n) = f m n >>= fun r => pure (.int r) := rfl
    rw [hints]
    rcases hf m n with ⟨r, hr⟩ | ⟨rfl, rfl, hzero⟩
    · rw [hr]
      exact .value hfits (by simp [refused?, accepts_int hp])
    · rw [hzero]
      exact .divisionByZero
  · rw [hcall]
    exact .refused hfits hv hrejects

/-- An operation on a list that has an answer for all lists. -/
theorem conduct_of_items {a : Value} (hp : p ∈ [.length, .car, .cdr]) (hfits : p.Fits [a])
    (f : List Value → Value) :
    Conduct limit p [a] (p.items limit a >>= fun vs => pure (f vs)) := by
  cases hlist : a.isList with
  | true =>
    cases a with
    | list i vs =>
      refine .value hfits ?_
      simp only [List.mem_cons, List.not_mem_nil, or_false] at hp
      rcases hp with rfl | rfl | rfl <;> rfl
    | _ => cases hlist
  | false =>
    have hrejects : p.Rejects a (.notList p) := .notList hp hlist
    have hcall : (p.items limit a >>= fun vs => pure (f vs)) =
        a.describe limit >>= fun shown => .fault (.notList p shown) := by
      have hitems : p.items limit a = a.describe limit >>= fun shown => .fault (.notList p shown) := by
        cases a <;> first | rfl | cases hlist
      rw [hitems]
      cases a.describe limit <;> rfl
    rw [hcall]
    exact .refused hfits (by simp [refused?, accepts_eq_false_of_rejects hrejects]) hrejects

theorem conduct_of_relation (r : Relation) (hlen : args.length = 2) :
    Conduct limit r.primitive args (r.primitive.call limit id args) := by
  obtain ⟨a, b, rfl⟩ := List.length_eq_two.1 hlen
  rw [call_ordering]
  exact .ordering

/-- Every call goes one of the ways. -/
theorem conduct (limit : Nat) (id : ObjectId) (p : Primitive) (args : List Value) :
    Conduct limit p args (p.call limit id args) := by
  by_cases hfits : p.Fits args
  · cases p with
    | add | sub | mul =>
      obtain ⟨a, b, rfl⟩ := List.length_eq_two.1 (hfits 2 rfl)
      exact conduct_of_arithmetic (by decide) hfits rfl fun m n => Or.inl ⟨_, rfl⟩
    | div =>
      obtain ⟨a, b, rfl⟩ := List.length_eq_two.1 (hfits 2 rfl)
      refine conduct_of_arithmetic (by decide) hfits rfl fun m n => ?_
      unfold quotient
      split
      · next hn => exact Or.inr ⟨hn, rfl, rfl⟩
      · exact Or.inl ⟨_, rfl⟩
    | eqNumber | eqIdentity | eqStructure =>
      obtain ⟨a, b, rfl⟩ := List.length_eq_two.1 (hfits 2 rfl)
      rw [call_equality (by decide)]
      exact .equality (by decide)
    | less => exact conduct_of_relation .less (hfits 2 rfl)
    | greater => exact conduct_of_relation .greater (hfits 2 rfl)
    | lessEq => exact conduct_of_relation .lessEq (hfits 2 rfl)
    | greaterEq => exact conduct_of_relation .greaterEq (hfits 2 rfl)
    | length | car | cdr =>
      obtain ⟨a, rfl⟩ := List.length_eq_one_iff.1 (hfits 1 rfl)
      exact conduct_of_items (by decide) hfits _
    | not | isList | isNull | isSymbol =>
      obtain ⟨a, rfl⟩ := List.length_eq_one_iff.1 (hfits 1 rfl)
      exact .value hfits rfl
    | cons =>
      obtain ⟨a, b, rfl⟩ := List.length_eq_two.1 (hfits 2 rfl)
      exact .value hfits rfl
    | list =>
      refine .value hfits ?_
      simp [refused?, accepts]
  · simp only [Fits, not_forall] at hfits
    obtain ⟨n, harity, hne⟩ := hfits
    rw [call_of_length_ne harity hne]
    exact .miscounted harity hne

/-- A call is cut off where an operand is shown or compared that nests too deep. -/
theorem call_exhausted (h : p.call limit id args = .exhausted) :
    (∃ v, p.refused? args = some v ∧ limit < v.height) ∨
      (p ∈ [.eqNumber, .eqIdentity, .eqStructure] ∨ ∃ r : Relation, p = r.primitive) ∧
        ∃ v ∈ args, limit ≤ v.height := by
  have hconduct := conduct limit id p args
  generalize p.call limit id args = o at h hconduct
  cases hconduct with
  | miscounted | divisionByZero | value => cases h
  | @refused _ _ v _ hfits hv hrejects =>
    rcases Outcome.bind_eq_exhausted h with hcut | ⟨_, -, hfault⟩
    · exact Or.inl ⟨v, hv, v.lt_height_of_describe hcut⟩
    · cases hfault
  | @equality _ a b hp =>
    refine Or.inr ⟨Or.inl hp, a, by simp, ?_⟩
    rcases Value.same_cases limit a b with ⟨answer, hanswer⟩ | ⟨-, hdeep⟩
    · rw [hanswer] at h
      cases h
    · exact Nat.le_trans (Nat.le_trans hdeep (Nat.min_le_left ..)) a.nesting_le_height
  | @ordering r a b =>
    refine Or.inr ⟨Or.inr ⟨r, rfl⟩, a, by simp, ?_⟩
    rcases Value.order_cases limit a b with ⟨c, hc⟩ | ⟨-, hdeep⟩
    · rw [hc] at h
      cases c <;> cases h
    · exact Nat.le_trans (Nat.le_trans hdeep (Nat.min_le_left ..)) a.nesting_le_height

/-- A call fails for the number of its operands, for the type of the first one that has the wrong type,
for a divisor that is zero, or for two values that have no order. -/
theorem call_fault_cases {f : Fault} (h : p.call limit id args = .fault f) :
    (∃ n, p.arity = some n ∧ args.length ≠ n ∧ f = .arity (some p.name) n args.length) ∨
    (∃ v, p.refused? args = some v ∧ (f.kind = .wrongType ∨ f = .longInteger ∧ v.DisplaysLong)) ∨
    (p = .div ∧ (∃ m, args = [.int m, .int 0]) ∧ f = .divisionByZero .div) ∨
    ∃ r : Relation, p = r.primitive ∧ f.kind = .wrongType := by
  have hconduct := conduct limit id p args
  generalize p.call limit id args = o at h hconduct
  cases hconduct with
  | value => cases h
  | @miscounted _ _ n harity hne =>
    cases h
    exact Or.inl ⟨n, harity, hne, rfl⟩
  | @refused _ _ v make hfits hv hrejects =>
    refine Or.inr (Or.inl ⟨v, hv, ?_⟩)
    rcases Outcome.bind_eq_fault h with hshow | ⟨shown, -, hfault⟩
    · obtain ⟨hf, w, hw, hlong⟩ := v.describe_fault hshow
      obtain rfl := List.mem_singleton.1 hw
      exact Or.inr ⟨hf, hlong⟩
    · cases hfault
      cases hrejects <;> exact Or.inl rfl
  | @divisionByZero m =>
    cases h
    exact Or.inr (Or.inr (Or.inl ⟨rfl, ⟨m, rfl⟩, rfl⟩))
  | @equality _ a b hp =>
    rcases Outcome.bind_eq_fault h with hsame | ⟨_, -, hfault⟩
    · exact absurd hsame (a.same_ne_fault b)
    · cases hfault
  | @ordering r a b =>
    refine Or.inr (Or.inr (Or.inr ⟨r, rfl, ?_⟩))
    rcases Value.order_cases limit a b with ⟨c, hc⟩ | ⟨hcut, -⟩
    · rw [hc] at h
      cases c with
      | ordered o => cases h
      | unordered left right =>
        cases h
        rfl
    · rw [hcut] at h
      cases h

theorem call_arity_iff {f : Fault} :
    (p.call limit id args = .fault f ∧ f.kind = .arity) ↔
      ∃ n, p.arity = some n ∧ args.length ≠ n ∧ f = .arity (some p.name) n args.length := by
  constructor
  · rintro ⟨hf, hkind⟩
    rcases call_fault_cases hf with harity | ⟨v, -, hwrong | ⟨rfl, -⟩⟩ | ⟨-, -, rfl⟩ | ⟨r, -, hwrong⟩
    · exact harity
    · cases hkind.symm.trans hwrong
    · cases hkind
    · cases hkind
    · cases hkind.symm.trans hwrong
  · rintro ⟨n, harity, hne, rfl⟩
    exact ⟨call_of_length_ne harity hne, rfl⟩

theorem call_divisionByZero_iff {f : Fault} :
    (p.call limit id args = .fault f ∧ f.kind = .divisionByZero) ↔
      p = .div ∧ (∃ m, args = [.int m, .int 0]) ∧ f = .divisionByZero .div := by
  constructor
  · rintro ⟨hf, hkind⟩
    rcases call_fault_cases hf with ⟨n, -, -, rfl⟩ | ⟨v, -, hwrong | ⟨rfl, -⟩⟩ | hzero | ⟨r, -, hwrong⟩
    · cases hkind
    · cases hkind.symm.trans hwrong
    · cases hkind
    · exact hzero
    · cases hkind.symm.trans hwrong
  · rintro ⟨rfl, ⟨m, rfl⟩, rfl⟩
    exact ⟨rfl, rfl⟩

theorem call_div (limit : Nat) (id : ObjectId) (m : Int) {n : Int} (hn : n ≠ 0) :
    Primitive.div.call limit id [.int m, .int n] = .value (.int (m.fdiv n)) := by
  have hcall : Primitive.div.call limit id [.int m, .int n] =
      quotient .div m n >>= fun r => pure (Value.int r) := rfl
  rw [hcall, quotient, if_neg hn]
  rfl

/-- A call that is not cut off and has not to show an integer that cannot be written. -/
structure Unhindered (limit : Nat) (id : ObjectId) (p : Primitive) (args : List Value) : Prop where
  deep : p.call limit id args ≠ .exhausted
  shown : ∀ v, p.refused? args = some v → ¬ v.DisplaysLong

theorem accepts_of_equality (hp : p ∈ [.eqNumber, .eqIdentity, .eqStructure]) (v : Value) :
    p.accepts v = true := by
  simp only [List.mem_cons, List.not_mem_nil, or_false] at hp
  rcases hp with rfl | rfl | rfl <;> rfl

/-- An operand of the wrong type is the only reason for a fault about types, order apart. -/
theorem call_wrongType_iff (hrelation : ∀ r : Relation, p ≠ r.primitive) (hfits : p.Fits args)
    (h : Unhindered limit id p args) :
    (∃ f, p.call limit id args = .fault f ∧ f.kind = .wrongType) ↔ ∃ v ∈ args, p.accepts v = false := by
  constructor
  · rintro ⟨f, hf, hkind⟩
    rcases call_fault_cases hf with ⟨n, -, -, rfl⟩ | ⟨v, hv, -⟩ | ⟨-, -, rfl⟩ | ⟨r, hr, -⟩
    · cases hkind
    · exact ⟨v, List.mem_of_find?_eq_some hv, by simpa using List.find?_some hv⟩
    · cases hkind
    · exact absurd hr (hrelation r)
  · rintro ⟨w, hw, hrefused⟩
    obtain ⟨v, hv⟩ : ∃ v, p.refused? args = some v := by
      refine Option.isSome_iff_exists.1 (List.find?_isSome.2 ⟨w, hw, ?_⟩)
      simp [hrefused]
    have hdeep := h.deep
    have hlong := h.shown v hv
    have hconduct := conduct limit id p args
    generalize p.call limit id args = o at hdeep hconduct ⊢
    cases hconduct with
    | miscounted harity hne => exact absurd (hfits _ harity) hne
    | @refused _ _ u make _ hu hrejects =>
      obtain rfl : u = v := Option.some.inj (hu.symm.trans hv)
      cases hshow : u.describe limit with
      | value shown => exact ⟨make shown, rfl, by cases hrejects <;> rfl⟩
      | fault e =>
        obtain ⟨-, x, hx, hshown⟩ := u.describe_fault hshow
        rw [List.mem_singleton.1 hx] at hshown
        exact absurd hshown hlong
      | exhausted =>
        rw [hshow] at hdeep
        exact absurd rfl hdeep
    | divisionByZero => cases hv
    | @equality _ a b hp => exact absurd hv (by simp [refused?, accepts_of_equality hp])
    | @ordering r a b => exact absurd rfl (hrelation r)
    | value _ hnone => exact absurd (hnone.symm.trans hv) (by simp)

/-- A group of primitives without the tests of order. -/
theorem ne_relation {ps : List Primitive} (hp : p ∈ ps) (hps : ∀ r : Relation, r.primitive ∉ ps)
    (r : Relation) : p ≠ r.primitive := by
  rintro rfl
  exact hps r hp

/-- The primitives that take operands of every type and are no tests of order. -/
def total : List Primitive :=
  [.not, .eqNumber, .eqIdentity, .eqStructure, .cons, .list, .isList, .isNull, .isSymbol]

/-- These have a value whenever the operands are as many as they take, unless an equality is cut off. -/
theorem call_of_total (hp : p ∈ total) (hfits : p.Fits args) :
    (∃ v, p.call limit id args = .value v) ∨ p.call limit id args = .exhausted ∧
      p ∈ [.eqNumber, .eqIdentity, .eqStructure] ∧ ∃ v ∈ args, limit ≤ v.height := by
  have hnone : p.refused? args = none := by
    simp only [total, List.mem_cons, List.not_mem_nil, or_false] at hp
    rcases hp with rfl | rfl | rfl | rfl | rfl | rfl | rfl | rfl | rfl <;> simp [refused?, accepts]
  have hrelation := ne_relation hp fun r => by cases r <;> decide
  cases hcall : p.call limit id args with
  | value v => exact Or.inl ⟨v, rfl⟩
  | fault f =>
    rcases call_fault_cases hcall with ⟨n, harity, hne, -⟩ | ⟨v, hv, -⟩ | ⟨rfl, -⟩ | ⟨r, hr, -⟩
    · exact absurd (hfits n harity) hne
    · cases hnone.symm.trans hv
    · exact absurd hp (by decide)
    · exact absurd hr (hrelation r)
  | exhausted =>
    rcases call_exhausted hcall with ⟨v, hv, -⟩ | ⟨hequality | ⟨r, hr⟩, hdeep⟩
    · cases hnone.symm.trans hv
    · exact Or.inr ⟨rfl, hequality, hdeep⟩
    · exact absurd hr (hrelation r)

/-- Arithmetic wants integers. -/
theorem arithmetic_wrongType_iff {a b : Value} (hp : p ∈ [.add, .sub, .mul, .div])
    (h : Unhindered limit id p [a, b]) :
    (∃ f, p.call limit id [a, b] = .fault f ∧ f.kind = .wrongType) ↔
      a.kind ≠ .int ∨ b.kind ≠ .int := by
  have hrelation := ne_relation hp fun r => by cases r <;> decide
  have hfits : p.Fits [a, b] := by
    simp only [List.mem_cons, List.not_mem_nil, or_false] at hp
    rcases hp with rfl | rfl | rfl | rfl <;> exact fun n hn => Option.some.inj hn
  have haccepts : ∀ v, p.accepts v = false ↔ v.kind ≠ .int := by
    simp only [List.mem_cons, List.not_mem_nil, or_false] at hp
    rcases hp with rfl | rfl | rfl | rfl <;> simp [accepts]
  rw [call_wrongType_iff hrelation hfits h]
  simp only [List.mem_cons, List.not_mem_nil, or_false, exists_eq_or_imp, exists_eq_left, haccepts]

/-- Access to the items wants a list. -/
theorem access_wrongType_iff {v : Value} (hp : p ∈ [.length, .car, .cdr])
    (h : Unhindered limit id p [v]) :
    (∃ f, p.call limit id [v] = .fault f ∧ f.kind = .wrongType) ↔ v.kind ≠ .list := by
  have hrelation := ne_relation hp fun r => by cases r <;> decide
  have hfits : p.Fits [v] := by
    simp only [List.mem_cons, List.not_mem_nil, or_false] at hp
    rcases hp with rfl | rfl | rfl <;> exact fun n hn => Option.some.inj hn
  have haccepts : p.accepts v = false ↔ v.kind ≠ .list := by
    simp only [List.mem_cons, List.not_mem_nil, or_false] at hp
    rcases hp with rfl | rfl | rfl <;> cases v <;> simp [accepts, Value.isList, Value.kind]
  rw [call_wrongType_iff hrelation hfits h]
  simp only [List.mem_singleton, exists_eq_left, haccepts]

end Calls

/-! ## Lists -/

theorem call_cons (limit : Nat) (id : ObjectId) (x y : Value) :
    Primitive.cons.call limit id [x, y] = .value (.list (some id) (x.asList ++ y.asList)) := rfl

theorem length_asList (v : Value) : v.asList.length = v.size := by
  cases v <;> rfl

/-- What `cons` puts together is as long as its operands are. -/
theorem length_call_cons (limit : Nat) (i id : ObjectId) (x y : Value) :
    ∃ xy, Primitive.cons.call limit i [x, y] = .value xy ∧
      Primitive.length.call limit id [xy] = .value (.int (x.size + y.size)) := by
  refine ⟨_, call_cons limit i x y, ?_⟩
  have hlength : (x.asList ++ y.asList).length = x.size + y.size := by
    rw [List.length_append, length_asList, length_asList]
  have hsum : ((x.size + y.size : Nat) : Int) = x.size + y.size := Int.natCast_add _ _
  rw [← hsum, ← hlength]
  rfl

theorem asList_of_not_list {v : Value} (h : v.kind ≠ .list) : v.asList = [v] := by
  cases v with
  | list i items => exact absurd rfl h
  | _ => rfl

/-- Lists with the same items are equal, unless the comparison is cut off. -/
theorem call_equality_of_items {p : Primitive} (hp : p ∈ [.eqNumber, .eqIdentity, .eqStructure])
    (limit : Nat) (id : ObjectId) (i j : Option ObjectId) (items : List Value) :
    p.call limit id [.list i items, .list j items] = .value (.bool true) ∨
      p.call limit id [.list i items, .list j items] = .exhausted := by
  rw [call_equality hp]
  rcases Value.same_decides limit (.list i items) (.list j items) with hcut | ⟨answer, hsame, hiff⟩
  · exact Or.inr (by rw [hcut]; rfl)
  · obtain rfl : answer = true := hiff.2 rfl
    exact Or.inl (by rw [hsame]; rfl)

/-! ## All calls -/

/-- Calls of primitives, at any depth limit. The first part says when each kind of fault arises, and
that there is no other: only a value that has to be shown and cannot be written adds one. The second
part says what the values are, and that a call is cut off only for operands that are nested as deep as
the limit. The last part has the laws of lists. -/
theorem call_exact (limit : Nat) (id : ObjectId) :
    -- Faults: the number of operands, then their types, then the divisor.
    (∀ (p : Primitive) (args : List Value) (f : Fault),
      (p.call limit id args = .fault f ∧ f.kind = .arity) ↔
        ∃ n, p.arity = some n ∧ args.length ≠ n ∧ f = .arity (some p.name) n args.length) ∧
    (∀ p ∈ [Primitive.add, .sub, .mul, .div], ∀ a b, Unhindered limit id p [a, b] →
      ((∃ f, p.call limit id [a, b] = .fault f ∧ f.kind = .wrongType) ↔
        a.kind ≠ .int ∨ b.kind ≠ .int)) ∧
    (∀ p ∈ [Primitive.length, .car, .cdr], ∀ v, Unhindered limit id p [v] →
      ((∃ f, p.call limit id [v] = .fault f ∧ f.kind = .wrongType) ↔ v.kind ≠ .list)) ∧
    (∀ (p : Primitive) (args : List Value) (f : Fault),
      (p.call limit id args = .fault f ∧ f.kind = .divisionByZero) ↔
        p = .div ∧ (∃ m, args = [.int m, .int 0]) ∧ f = .divisionByZero .div) ∧
    (∀ (p : Primitive) (args : List Value) (f : Fault), p.call limit id args = .fault f →
      f.kind = .arity ∨ f.kind = .wrongType ∨ f.kind = .divisionByZero ∨
        f = .longInteger ∧ ∃ v, p.refused? args = some v ∧ v.DisplaysLong) ∧
    -- Values.
    (∀ m n : Int,
      Primitive.add.call limit id [.int m, .int n] = .value (.int (m + n)) ∧
      Primitive.sub.call limit id [.int m, .int n] = .value (.int (m - n)) ∧
      Primitive.mul.call limit id [.int m, .int n] = .value (.int (m * n)) ∧
      (n ≠ 0 → ∃ q r, Primitive.div.call limit id [.int m, .int n] = .value (.int q) ∧
        IsQuotient m n q r ∧ ∀ q' r', IsQuotient m n q' r' → q' = q ∧ r' = r)) ∧
    (∀ (i : Option ObjectId) (items : List Value),
      Primitive.length.call limit id [.list i items] = .value (.int items.length) ∧
      Primitive.car.call limit id [.list i items] = .value (items.head?.getD .noValue) ∧
      Primitive.cdr.call limit id [.list i items] = .value (.list (some id) items.tail)) ∧
    (∀ p ∈ [Primitive.not, .eqNumber, .eqIdentity, .eqStructure, .cons, .list, .isList, .isNull,
        .isSymbol],
      ∀ args : List Value, (∀ n, p.arity = some n → args.length = n) →
        (∃ v, p.call limit id args = .value v) ∨ p.call limit id args = .exhausted ∧
          p ∈ [.eqNumber, .eqIdentity, .eqStructure] ∧ ∃ v ∈ args, limit ≤ v.height) ∧
    (∀ (p : Primitive) (args : List Value), p.call limit id args = .exhausted →
      ∃ v ∈ args, limit ≤ v.height) ∧
    -- Laws of lists.
    (∀ (x y z : Value) (i j k : ObjectId), ∃ xy yz items,
      Primitive.cons.call limit i [x, y] = .value xy ∧
      Primitive.cons.call limit j [y, z] = .value yz ∧
      Primitive.cons.call limit id [xy, z] = .value (.list (some id) items) ∧
      Primitive.cons.call limit k [x, yz] = .value (.list (some k) items)) ∧
    (∀ (x y : Value) (i : ObjectId), ∃ xy, Primitive.cons.call limit i [x, y] = .value xy ∧
      Primitive.length.call limit id [xy] = .value (.int (x.size + y.size))) ∧
    (∀ (x : Value) (xs : List Value) (i : Option ObjectId) (j : ObjectId), x.kind ≠ .list →
      ∃ rest, Primitive.car.call limit id [.list i (x :: xs)] = .value x ∧
        Primitive.cdr.call limit j [.list i (x :: xs)] = .value rest ∧
        Primitive.cons.call limit id [x, rest] = .value (.list (some id) (x :: xs))) ∧
    ∀ p ∈ [Primitive.eqNumber, .eqIdentity, .eqStructure],
      ∀ (i j : Option ObjectId) (items : List Value),
        p.call limit id [.list i items, .list j items] = .value (.bool true) ∨
          p.call limit id [.list i items, .list j items] = .exhausted := by
  refine ⟨fun p args f => call_arity_iff, fun p hp a b h => arithmetic_wrongType_iff hp h,
    fun p hp v h => access_wrongType_iff hp h, fun p args f => call_divisionByZero_iff, ?_, ?_, ?_,
    fun p hp args hfits => call_of_total hp hfits, ?_, ?_, fun x y i => length_call_cons limit i id x y,
    ?_, fun p hp => call_equality_of_items hp limit id⟩
  · intro p args f hf
    rcases call_fault_cases hf with ⟨n, -, -, rfl⟩ | ⟨v, hv, hwrong | hlong⟩ | ⟨-, -, rfl⟩ | ⟨r, -, hwrong⟩
    · exact Or.inl rfl
    · exact Or.inr (Or.inl hwrong)
    · exact Or.inr (Or.inr (Or.inr ⟨hlong.1, v, hv, hlong.2⟩))
    · exact Or.inr (Or.inr (Or.inl rfl))
    · exact Or.inr (Or.inl hwrong)
  · intro m n
    refine ⟨rfl, rfl, rfl, fun hn => ⟨m.fdiv n, m.fmod n, call_div limit id m hn, ?_⟩⟩
    exact ⟨isQuotient_fdiv m hn, fun q' r' h => (isQuotient_fdiv m hn).unique h⟩
  · intro i items
    cases items <;> exact ⟨rfl, rfl, rfl⟩
  · intro p args hcut
    rcases call_exhausted hcut with ⟨v, hv, hdeep⟩ | ⟨-, hdeep⟩
    · exact ⟨v, List.mem_of_find?_eq_some hv, Nat.le_of_lt hdeep⟩
    · exact hdeep
  · intro x y z i j k
    refine ⟨_, _, x.asList ++ (y.asList ++ z.asList), rfl, rfl, ?_, rfl⟩
    rw [call_cons, ← List.append_assoc]
    rfl
  · intro x xs i j hx
    refine ⟨_, rfl, rfl, ?_⟩
    rw [call_cons, asList_of_not_list hx]
    rfl

/-- The type of the first operand counts before the divisor does; a quotient of integers of different
sign is rounded down; a list with a list in it is put together again. -/
theorem call_exact_precedence :
    (∃ f, Primitive.div.call 3 0 [.bool true, .int 0] = .fault f ∧ f.kind = .wrongType) ∧
    (∃ q r, Primitive.div.call 3 0 [.int (-7), .int 2] = .value (.int q) ∧ IsQuotient (-7) 2 q r) ∧
    ∃ rest, Primitive.cdr.call 3 1 [.list (some 4) [.int 1, .list (some 5) [.int 2]]] = .value rest ∧
      Primitive.cons.call 3 0 [.int 1, rest] =
        .value (.list (some 0) [.int 1, .list (some 5) [.int 2]]) := by
  obtain ⟨-, harith, -, -, -, hvalues, -, -, -, -, -, hrebuilt, -⟩ := call_exact 3 0
  refine ⟨?_, ?_, ?_⟩
  · have hcall : Unhindered 3 0 .div [.bool true, .int 0] := by
      constructor
      · intro hcut
        cases hcut
      · rintro v hv ⟨n, hn, -⟩
        cases hv
        cases hn
    exact (harith .div (by simp) _ _ hcall).2 (Or.inl (by simp [Value.kind]))
  · obtain ⟨-, -, -, hdiv⟩ := hvalues (-7) 2
    obtain ⟨q, r, hq, hqr, -⟩ := hdiv (by decide)
    exact ⟨q, r, hq, hqr⟩
  · obtain ⟨rest, -, hcdr, hcons⟩ :=
      hrebuilt (.int 1) [.list (some 5) [.int 2]] (some 4) 1 (by simp [Value.kind])
    exact ⟨rest, hcdr, hcons⟩

end Primitive

end Lisplet
