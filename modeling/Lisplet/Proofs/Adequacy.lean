import Lisplet.Proofs.Preservation

/-!
# The evaluator and the rules of evaluation

The evaluator with a depth limit and the rules without one say the same. What the evaluator gives at
any limit, unless it was cut off, can be derived; and what can be derived is what the evaluator gives
at every limit that is large enough. Both directions go through the parts of the evaluator one by one:
lists of forms, keywords, applications, and then one step of evaluation.

Main statement: `evaluate_adequate`.
-/

namespace Lisplet

variable {limit : Nat} {i : FrameId} {m m' : Machine}

/-! ## The parts of the evaluator -/

private theorem value_eq_ofExcept {α : Type} {a : α} {r : Except Fault α}
    (h : (Outcome.value a, m) = (Outcome.ofExcept r, m')) : r = .ok a ∧ m' = m := by
  cases r <;> cases h
  exact ⟨rfl, rfl⟩

private theorem fault_eq_ofExcept {α : Type} {e : Fault} {r : Except Fault α}
    (h : ((Outcome.fault e : Outcome α), m) = (Outcome.ofExcept r, m')) :
    r = .error e ∧ m' = m := by
  cases r <;> cases h
  exact ⟨rfl, rfl⟩

/-- A fault that shows a value changes nothing. -/
theorem Run.faultShowing_eq {α : Type} {v : Value} {make : String → Fault} {r : Except Fault α}
    (h : Run.faultShowing limit v make m = (Outcome.ofExcept r, m')) :
    m' = m ∧ ∃ f, r = .error f ∧ Shows v make f := by
  rcases Run.bind_eq_ofExcept h with ⟨text, m₁, hshow, hfault⟩ | ⟨f, hshow, hr⟩
  · obtain ⟨hdesc, rfl⟩ := Prod.mk.inj hshow
    obtain ⟨hr, hm⟩ := fault_eq_ofExcept hfault
    exact ⟨hm, make text, hr, .shown (.of_approx (fun hle => v.describe_approx hle) hdesc)⟩
  · obtain ⟨hdesc, hm⟩ := Prod.mk.inj hshow
    exact ⟨hm.symm, f, hr, .unshowable (.of_approx (fun hle => v.describe_approx hle) hdesc)⟩

/-- Nothing follows such a fault. -/
theorem Run.faultShowing_bind_eq {α β : Type} {v : Value} {make : String → Fault}
    {g : α → Run β} {r : Except Fault β}
    (h : (Run.faultShowing limit v make >>= g) m = (Outcome.ofExcept r, m')) :
    m' = m ∧ ∃ f, r = .error f ∧ Shows v make f := by
  rcases Run.bind_eq_ofExcept h with ⟨a, m₁, hshow, -⟩ | ⟨f, hshow, rfl⟩
  · obtain ⟨-, f, hr, -⟩ := Run.faultShowing_eq (r := .ok a) hshow
    cases hr
  · obtain ⟨hm, e, hr, hs⟩ := Run.faultShowing_eq (r := .error f) hshow
    cases hr
    exact ⟨hm, f, rfl, hs⟩

/-- With enough depth the fault that shows a value is the one of the rules. -/
theorem Shows.ends {v : Value} {make : String → Fault} {f : Fault} (h : Shows v make f) :
    ∃ enough, ∀ n, enough ≤ n → ∀ {α : Type} (s : Store),
      Run.Ends (Run.faultShowing n v make : Run α) s (.error f) s := by
  cases h with
  | shown hdesc =>
    obtain ⟨enough, hn⟩ := hdesc
    exact ⟨enough, fun n hle _ s => (Run.Ends.lift (hn n hle) s).bind (.fault _ s)⟩
  | unshowable hdesc =>
    obtain ⟨enough, hn⟩ := hdesc
    exact ⟨enough, fun n hle _ s => (Run.Ends.lift (hn n hle) s).bind_error⟩

theorem Keyword.ofName?_name (k : Keyword) : Keyword.ofName? k.name = some k := by
  cases k <;> decide

theorem Value.keyword?_eq_some_iff {head : Value} {k : Keyword} :
    head.keyword? = some k ↔ head = .symbol k.name := by
  constructor
  · intro h
    cases head with
    | symbol x =>
      have hname := List.find?_some h
      rw [beq_iff_eq.1 hname]
    | _ => cases h
  · rintro rfl
    exact k.ofName?_name

/-- The evaluator has the words of the rules for the keywords. -/
theorem Keyword.written_iff {k : Keyword} {x : String} : k.Written x ↔ x = k.name := by
  constructor
  · rintro ⟨⟩ <;> rfl
  · rintro rfl
    cases k <;> constructor

theorem Value.keyword?_eq_none_iff {head : Value} : head.keyword? = none ↔ ¬ head.IsKeyword := by
  rw [Option.eq_none_iff_forall_ne_some]
  constructor
  · rintro h ⟨k, x, hx, rfl⟩
    rw [Keyword.written_iff] at hx
    exact h k (Value.keyword?_eq_some_iff.2 (congrArg Value.symbol hx))
  · rintro h k hk
    exact h ⟨k, k.name, Keyword.written_iff.2 rfl, Value.keyword?_eq_some_iff.1 hk⟩

/-- Nothing counts as false but false itself and the absence of a value. -/
theorem Value.isTrue_eq_false_iff {v : Value} : v.isTrue = false ↔ v = .bool false ∨ v = .noValue := by
  cases v <;> simp [Value.isTrue]

theorem Value.isTrue_eq_true_iff {v : Value} : v.isTrue = true ↔ v ≠ .bool false ∧ v ≠ .noValue := by
  rw [← Bool.not_eq_false, Value.isTrue_eq_false_iff, not_or]

theorem exists_isList_iff {vs : List Value} :
    (∃ v ∈ vs, v.isList = true) ↔ ∃ id items, Value.list id items ∈ vs := by
  constructor
  · rintro ⟨v, hv, hlist⟩
    cases v with
    | list id items => exact ⟨id, items, hv⟩
    | _ => cases hlist
  · rintro ⟨id, items, hv⟩
    exact ⟨_, hv, rfl⟩

/-- Looking up a symbol asks the store and changes nothing. -/
theorem Scope.lookup_apply (i : FrameId) (x : String) (m : Machine) :
    Scope.lookup i x m = (match m.store.lookup? i x with
      | some v => .value v
      | none => .fault (.unbound x), m) := by
  unfold Scope.lookup
  rw [Run.bind_of_value _ (Run.query_apply ..)]
  cases m.store.lookup? i x <;> rfl

/-- An assignment binds the symbol in the frame that the store finds for it. -/
theorem Scope.assign_apply (i : FrameId) (x : String) (v : Value) (m : Machine) :
    Scope.assign i x v m = (match m.store.find? i x with
      | some j => (.value (), { m with store := m.store.bind j x v })
      | none => (.fault (.unbound x), m)) := by
  unfold Scope.assign
  rw [Run.bind_of_value _ (Run.query_apply ..)]
  cases m.store.find? i x <;> rfl

/-- A keyword with a wrong number of operands does nothing else than say so. -/
theorem Keyword.run_of_not_takes {k : Keyword} {ops : List Value} (h : ¬ k.Takes ops.length)
    (ev : Evaluator) : k.run limit ev ops i = k.misused ops.length := by
  cases k with
  | quote =>
    match ops with
    | [] | _ :: _ :: _ => rfl
    | [_] => exact absurd rfl h
  | cond =>
    match ops with
    | [] | [_] | _ :: _ :: _ :: _ :: _ => rfl
    | [_, _] => exact absurd (Or.inl rfl) h
    | [_, _, _] => exact absurd (Or.inr rfl) h
  | assign | define =>
    match ops with
    | [] => rfl
    | [target] | target :: _ :: _ :: _ => cases target <;> rfl
    | [_, _] => exact absurd rfl h
  | lambda =>
    match ops with
    | [] | [_] => rfl
    | _ :: _ :: _ => exact absurd (Nat.le_add_left 2 _) h
  | begin => exact absurd trivial h

/-- The number that a keyword reports as expected, wherever it reports one. -/
theorem Keyword.expects_iff {k : Keyword} {n : Nat} : k.Expects n ↔ k ≠ .begin ∧ n = k.operands := by
  cases k <;> simp [Keyword.Expects, Keyword.operands]

/-! ## What the evaluator gives can be derived -/

/-- Whatever the evaluator gives in a well-formed store, unless it was cut off, can be derived. -/
def Sound (ev : Evaluator) : Prop :=
  ∀ ⦃i : FrameId⦄ ⦃form : Value⦄ ⦃m m' : Machine⦄ ⦃r : Except Fault Value⦄,
    m.store.WellFormed → i < m.store.frames.size → form.Within m.store.frames.size →
    ev form i m = (Outcome.ofExcept r, m') → Evaluates m.store i form r m'.store

variable {ev : Evaluator}

theorem evalAll_sound (hev : Sound ev) {forms : List Value} {r : Except Fault (List Value)}
    (hs : m.store.WellFormed) (hi : i < m.store.frames.size)
    (hforms : AllWithin m.store.frames.size forms)
    (h : evalAll ev i forms m = (Outcome.ofExcept r, m')) :
    EvaluatesAll m.store i forms r m'.store := by
  induction forms generalizing m r with
  | nil =>
    obtain ⟨rfl, rfl⟩ := value_eq_ofExcept h
    exact .nil
  | cons form forms ih =>
    obtain ⟨hform, hrest⟩ := hforms
    rcases Run.bind_eq_ofExcept h with ⟨v, m₁, hv, h⟩ | ⟨f, hf, rfl⟩
    · have hfirst : Evaluates m.store i form (.ok v) m₁.store := hev hs hi hform hv
      -- The rest runs in the store that the first form left, and that is well-formed again.
      obtain ⟨k₁, -⟩ := hfirst.keeps hs hi hform
      have hs₁ := k₁.wellFormed
      have hi₁ := k₁.lt_size hi
      have hrest₁ := k₁.allWithin hrest
      rcases Run.bind_eq_ofExcept h with ⟨vs, m₂, hvs, h⟩ | ⟨f, hf, rfl⟩
      · obtain ⟨rfl, rfl⟩ := value_eq_ofExcept h
        exact .cons hfirst (ih hs₁ hi₁ hrest₁ hvs)
      · exact .tailFails hfirst (ih hs₁ hi₁ hrest₁ hf)
    · exact .headFails (hev hs hi hform hf)

theorem evalLast_sound (hev : Sound ev) {last : Value} {forms : List Value}
    {r : Except Fault Value} (hs : m.store.WellFormed) (hi : i < m.store.frames.size)
    (hforms : AllWithin m.store.frames.size forms)
    (h : evalLast ev i last forms m = (Outcome.ofExcept r, m')) :
    EvaluatesLast m.store i last forms r m'.store := by
  induction forms generalizing m last with
  | nil =>
    obtain ⟨rfl, rfl⟩ := value_eq_ofExcept h
    exact .nil
  | cons form forms ih =>
    obtain ⟨hform, hrest⟩ := hforms
    rcases Run.bind_eq_ofExcept h with ⟨v, m₁, hv, h⟩ | ⟨f, hf, rfl⟩
    · have hfirst : Evaluates m.store i form (.ok v) m₁.store := hev hs hi hform hv
      obtain ⟨k₁, -⟩ := hfirst.keeps hs hi hform
      exact .cons hfirst (ih k₁.wellFormed (k₁.lt_size hi) (k₁.allWithin hrest) h)
    · exact .fails (hev hs hi hform hf)

/-- A conditional with two or three operands: what follows a test that does not hold is the third
operand, or nothing. -/
theorem runCond_eq {test yes : Value} {no : List Value} (hno : no.length ≤ 1) :
    Keyword.runCond ev i (test :: yes :: no) = (do
      let v ← ev test i
      if v.isTrue then ev yes i
      else match no with
        | [] => pure .noValue
        | other :: _ => ev other i) := by
  match no with
  | [] | [_] => rfl

private theorem runCond_sound (hev : Sound ev) {test yes : Value} {no : List Value}
    {r : Except Fault Value} (hno : no.length ≤ 1) (hs : m.store.WellFormed)
    (hi : i < m.store.frames.size)
    (hops : AllWithin m.store.frames.size (test :: yes :: no))
    (h : Keyword.runCond ev i (test :: yes :: no) m = (Outcome.ofExcept r, m')) :
    Follows .cond m.store i (test :: yes :: no) r m'.store := by
  obtain ⟨htest, hyes, hrest⟩ := hops
  rw [runCond_eq hno] at h
  rcases Run.bind_eq_ofExcept h with ⟨v, m₁, hv, h⟩ | ⟨f, hf, rfl⟩
  · have hd : Evaluates m.store i test (.ok v) m₁.store := hev hs hi htest hv
    obtain ⟨k₁, -⟩ := hd.keeps hs hi htest
    -- Either branch runs in the store that the test left; a branch that is missing runs nothing.
    cases hb : v.isTrue with
    | true =>
      rw [hb, if_pos rfl] at h
      obtain ⟨hfalse, hnone⟩ := Value.isTrue_eq_true_iff.1 hb
      exact .testHolds hno hd hfalse hnone
        (hev k₁.wellFormed (k₁.lt_size hi) (k₁.within hyes) h)
    | false =>
      rw [hb, if_neg Bool.false_ne_true] at h
      rw [Value.isTrue_eq_false_iff] at hb
      match no with
      | [] =>
        obtain ⟨rfl, rfl⟩ := value_eq_ofExcept h
        exact .missing hd hb
      | [_] => exact .otherwise hd hb (hev k₁.wellFormed (k₁.lt_size hi) (k₁.within hrest.1) h)
  · exact .testFails hno (hev hs hi htest hf)

private theorem runAssign_sound (hev : Sound ev) {x : String} {form : Value}
    {r : Except Fault Value} (hs : m.store.WellFormed) (hi : i < m.store.frames.size)
    (hform : form.Within m.store.frames.size)
    (h : Keyword.assign.run limit ev [.symbol x, form] i m = (Outcome.ofExcept r, m')) :
    Follows .assign m.store i [.symbol x, form] r m'.store := by
  rcases Run.bind_eq_ofExcept h with ⟨v, m₁, hv, h⟩ | ⟨f, hf, rfl⟩
  · have hd : Evaluates m.store i form (.ok v) m₁.store := hev hs hi hform hv
    obtain ⟨k₁, -⟩ := hd.keeps hs hi hform
    -- The owner is sought in the store that the operand left.
    cases hfind : m₁.store.find? i x with
    | some j =>
      have hassign : Scope.assign i x v m₁ =
          (.value (), { m₁ with store := m₁.store.bind j x v }) := by
        rw [Scope.assign_apply, hfind]
      rw [Run.bind_of_value _ hassign] at h
      obtain ⟨rfl, rfl⟩ := value_eq_ofExcept h
      exact .assign hd ((k₁.wellFormed.resolves_iff (k₁.lt_size hi)).2 hfind)
    | none =>
      have hassign : Scope.assign i x v m₁ = (.fault (.unbound x), m₁) := by
        rw [Scope.assign_apply, hfind]
      rw [Run.bind_of_fault _ hassign] at h
      obtain ⟨rfl, rfl⟩ := fault_eq_ofExcept h
      exact .assignUnbound hd ((k₁.wellFormed.unresolved_iff (k₁.lt_size hi)).2 hfind)
  · exact .formFails (Or.inl rfl) (hev hs hi hform hf)

private theorem runDefine_sound (hev : Sound ev) {x : String} {form : Value}
    {r : Except Fault Value} (hs : m.store.WellFormed) (hi : i < m.store.frames.size)
    (hform : form.Within m.store.frames.size)
    (h : Keyword.define.run limit ev [.symbol x, form] i m = (Outcome.ofExcept r, m')) :
    Follows .define m.store i [.symbol x, form] r m'.store := by
  rcases Run.bind_eq_ofExcept h with ⟨v, m₁, hv, h⟩ | ⟨f, hf, rfl⟩
  · have hd : Evaluates m.store i form (.ok v) m₁.store := hev hs hi hform hv
    obtain ⟨rfl, rfl⟩ := value_eq_ofExcept h
    exact .define hd
  · exact .formFails (Or.inr rfl) (hev hs hi hform hf)

/-- A `lambda` form with symbols for parameters reports how many they are and makes a closure. -/
theorem Keyword.runLambda_symbols {id : Option ObjectId} {names : List String} {form : Value}
    {forms : List Value} :
    Keyword.runLambda limit i (.list id (symbols names) :: form :: forms) = (do
      Run.report limit (.closureMade (symbols names).length)
      Run.update fun s => s.addClosure (symbols names) (Value.bodyOf (form :: forms)) i) := by
  have hall : (symbols names).all (·.name?.isSome) = true := all_name?_iff.2 ⟨names, rfl⟩
  simp only [Keyword.runLambda, hall, if_true]

/-- A `lambda` form whose parameters are no list of symbols makes no closure. -/
theorem runLambda_of_bad {params form : Value} {forms : List Value}
    (hparams : ∀ id names, params ≠ .list id (symbols names)) :
    Keyword.runLambda limit i (params :: form :: forms) =
      Run.faultShowing limit params .badParameters := by
  cases params with
  | list id formals =>
    have hall : formals.all (·.name?.isSome) = false := by
      rw [Bool.eq_false_iff]
      intro hall
      obtain ⟨names, rfl⟩ := all_name?_iff.1 hall
      exact hparams id names rfl
    simp only [Keyword.runLambda, hall]
    rfl
  | _ => rfl

private theorem runLambda_sound {params form : Value} {forms : List Value} {r : Except Fault Value}
    (h : Keyword.runLambda limit i (params :: form :: forms) m = (Outcome.ofExcept r, m')) :
    Follows .lambda m.store i (params :: form :: forms) r m'.store := by
  by_cases hparams : ∃ id names, params = .list id (symbols names)
  · obtain ⟨id, names, rfl⟩ := hparams
    rw [Keyword.runLambda_symbols] at h
    -- The report only counts the parameters, so it cannot fail.
    obtain ⟨log, h⟩ := Run.report_bind_eq rfl h
    obtain ⟨rfl, rfl⟩ := value_eq_ofExcept h
    cases forms with
    | nil => exact .lambda
    | cons next forms => exact .lambdaBegin
  · have hbad : ∀ id names, params ≠ .list id (symbols names) :=
      fun id names hp => hparams ⟨id, names, hp⟩
    rw [runLambda_of_bad hbad] at h
    obtain ⟨rfl, f, rfl, hshow⟩ := Run.faultShowing_eq h
    exact .badParameters hbad hshow

/-- The rules of keywords with a target, when the target is no symbol. -/
theorem run_of_badTarget {k : Keyword} {target form : Value}
    (hk : k = .assign ∨ k = .define) (ht : target.name? = none) :
    k.run limit ev [target, form] i = Run.faultShowing limit target (.badTarget k) := by
  rcases hk with rfl | rfl <;> cases target <;> first | rfl | cases ht

/-- What the rule of a keyword gives can be derived. -/
theorem Keyword.run_sound (hev : Sound ev) {k : Keyword} {ops : List Value} {r : Except Fault Value}
    (hs : m.store.WellFormed) (hi : i < m.store.frames.size)
    (hops : AllWithin m.store.frames.size ops)
    (h : k.run limit ev ops i m = (Outcome.ofExcept r, m')) :
    Follows k m.store i ops r m'.store := by
  -- A wrong number of operands comes to the same for all keywords and is split off first, so that
  -- each keyword below has operands of the shape that its rule names.
  by_cases htakes : k.Takes ops.length
  · cases k with
    | quote =>
      obtain ⟨v, rfl⟩ := List.length_eq_one_iff.1 htakes
      obtain ⟨rfl, rfl⟩ := value_eq_ofExcept h
      exact .quote
    | cond =>
      match ops with
      | [] | [_] => exact absurd htakes (by simp [Keyword.Takes])
      | test :: yes :: no =>
        have hno : no.length ≤ 1 := by
          simp only [Keyword.Takes, List.length_cons] at htakes
          omega
        exact runCond_sound hev hno hs hi hops h
    | assign =>
      match ops, htakes with
      | [target, form], _ =>
        cases ht : target.name? with
        | none =>
          rw [run_of_badTarget (Or.inl rfl) ht] at h
          obtain ⟨rfl, f, rfl, hshow⟩ := Run.faultShowing_eq h
          exact .badTarget (Or.inl rfl) ht hshow
        | some x =>
          cases target with
          | symbol y => exact runAssign_sound hev hs hi hops.2.1 h
          | _ => cases ht
    | define =>
      match ops, htakes with
      | [target, form], _ =>
        cases ht : target.name? with
        | none =>
          rw [run_of_badTarget (Or.inr rfl) ht] at h
          obtain ⟨rfl, f, rfl, hshow⟩ := Run.faultShowing_eq h
          exact .badTarget (Or.inr rfl) ht hshow
        | some x =>
          cases target with
          | symbol y => exact runDefine_sound hev hs hi hops.2.1 h
          | _ => cases ht
    | lambda =>
      match ops with
      | [] | [_] => exact absurd htakes (by simp [Keyword.Takes])
      | params :: form :: forms => exact runLambda_sound h
    | begin => exact .begin (evalLast_sound hev hs hi hops h)
  · rw [Keyword.run_of_not_takes htakes] at h
    obtain ⟨rfl, rfl⟩ := fault_eq_ofExcept h
    have hbegin : k ≠ .begin := by
      rintro rfl
      exact htakes trivial
    exact .misused (Keyword.written_iff.2 rfl) (Keyword.expects_iff.2 ⟨hbegin, rfl⟩) htakes

/-- Whatever is no procedure cannot be applied. -/
theorem apply_of_not_procedure {v : Value} (hv : ¬ v.IsProcedure) (args : List Value) :
    apply limit ev v args = Run.faultShowing limit v (.notCallable v) := by
  cases v with
  | primitive p home => exact absurd (Or.inl rfl) hv
  | closure id formals body captured => exact absurd (Or.inr rfl) hv
  | _ => rfl

/-- The call of a closure that has symbols for parameters is reported, and that cannot fail. -/
theorem applied_message (limit : Nat) (names : List String) (count : Nat) :
    ∃ text, (Event.applied (symbols names) count).message limit = .value text :=
  ⟨_, by simp only [Event.message, titleAll_symbols]; rfl⟩

private theorem applyClosure_sound (hev : Sound ev) {id : ObjectId} {formals args : List Value}
    {body : Value} {captured : FrameId} {r : Except Fault Value} (hs : m.store.WellFormed)
    (hv : (Value.closure id formals body captured).Within m.store.frames.size)
    (hargs : AllWithin m.store.frames.size args)
    (h : apply limit ev (.closure id formals body captured) args m = (Outcome.ofExcept r, m')) :
    Applies m.store (.closure id formals body captured) args r m'.store := by
  obtain ⟨hc, -, hb⟩ := hv
  simp only [apply] at h
  -- The cases are in the order of the checks: the count, then lists, then the first formal that is no
  -- symbol. A formal that is a list is found even behind one that cannot be bound.
  by_cases hlen : args.length = formals.length
  · by_cases hlist : ∃ v ∈ formals, v.isList = true
    · rw [Scope.makeFor_of_list hlen hlist, Run.bind_of_fault _ (Run.fault_apply ..)] at h
      obtain ⟨rfl, rfl⟩ := fault_eq_ofExcept h
      exact .listFormal hlen (exists_isList_iff.1 hlist)
    · rcases symbols_or_bad formals with ⟨names, rfl⟩ | ⟨names, bad, later, rfl, hbad⟩
      · rw [length_symbols] at hlen
        rw [Scope.makeFor_symbols hlen, Run.bind_of_value _ (Run.update_apply ..)] at h
        obtain ⟨text, htext⟩ := applied_message limit names args.length
        obtain ⟨log, h⟩ := Run.report_bind_eq htext h
        -- The store with the frame of the call has all the frames that the body may refer to.
        have k₁ := Keeps.callFrame hs names hargs hc
        exact .closure hlen (hev k₁.wellFormed (Store.addFrame_fst_lt ..) (k₁.within hb) h)
      · have hnolist : ∀ v ∈ symbols names ++ bad :: later, v.isList = false := by
          intro v hv
          rw [Bool.eq_false_iff]
          exact fun hl => hlist ⟨v, hv, hl⟩
        rw [Scope.makeFor_of_bad hlen hnolist hbad] at h
        obtain ⟨rfl, f, rfl, hshow⟩ := Run.faultShowing_bind_eq h
        exact .badFormal hlen (fun id items hmem => hlist (exists_isList_iff.2 ⟨id, items, hmem⟩))
          hbad hshow
  · rw [Scope.makeFor_of_length_ne hlen, Run.bind_of_fault _ (Run.fault_apply ..)] at h
    obtain ⟨rfl, rfl⟩ := fault_eq_ofExcept h
    exact .miscounted hlen

/-- What an application gives can be derived. -/
theorem apply_sound (hev : Sound ev) {v : Value} {args : List Value} {r : Except Fault Value}
    (hs : m.store.WellFormed) (hv : v.Within m.store.frames.size)
    (hargs : AllWithin m.store.frames.size args)
    (h : apply limit ev v args m = (Outcome.ofExcept r, m')) :
    Applies m.store v args r m'.store := by
  by_cases hp : v.IsProcedure
  · cases v with
    | primitive p home =>
      simp only [apply] at h
      -- An identity is drawn for the result before the call, even if the call fails.
      rw [Run.bind_of_value _ (Run.update_apply ..)] at h
      obtain ⟨hcall, rfl⟩ := Prod.mk.inj h
      exact .primitive (.of_approx (fun hle => Primitive.call_approx hle _ p args) hcall)
    | closure id formals body captured => exact applyClosure_sound hev hs hv hargs h
    | _ => rcases hp with hk | hk <;> cases hk
  · rw [apply_of_not_procedure hp] at h
    obtain ⟨rfl, f, rfl, hshow⟩ := Run.faultShowing_eq h
    exact .notCallable hp hshow

/-- What the look-up of a symbol gives can be derived. -/
private theorem lookup_sound {x : String} {r : Except Fault Value} (hs : m.store.WellFormed)
    (hi : i < m.store.frames.size) (h : Scope.lookup i x m = (Outcome.ofExcept r, m')) :
    Evaluates m.store i (.symbol x) r m'.store := by
  rw [Scope.lookup_apply] at h
  cases hfind : m.store.find? i x with
  | none =>
    have hnone : m.store.lookup? i x = none := by rw [Store.lookup?, hfind]; rfl
    rw [hnone] at h
    obtain ⟨rfl, rfl⟩ := fault_eq_ofExcept h
    exact .unbound ((hs.unresolved_iff hi).2 hfind)
  | some j =>
    have hr : Resolves m.store x i j := (hs.resolves_iff hi).2 hfind
    obtain ⟨v, hget⟩ := hr.exists_get?
    have hsome : m.store.lookup? i x = some v := by rw [Store.lookup?, hfind]; exact hget
    rw [hsome] at h
    obtain ⟨rfl, rfl⟩ := value_eq_ofExcept h
    exact .symbol hr hget

/-- What one step of evaluation gives can be derived, if what the deeper evaluators give can. -/
theorem evalStep_sound {deeper : Nat → Evaluator} (hdeep : ∀ k, Sound (deeper k)) :
    Sound (evalStep limit deeper) := by
  intro i form m m' r hs hi hform h
  cases form with
  | symbol x => exact lookup_sound hs hi h
  | list id items =>
    cases items with
    | nil =>
      obtain ⟨rfl, f, rfl, hshow⟩ := Run.faultShowing_eq h
      exact .nothing hshow
    | cons head ops =>
      simp only [evalStep] at h
      cases hk : head.keyword? with
      | some k =>
        rw [hk] at h
        obtain rfl := Value.keyword?_eq_some_iff.1 hk
        obtain ⟨log, h⟩ := Run.report_bind_eq rfl h
        exact .special (Keyword.written_iff.2 rfl)
          (Keyword.run_sound (hdeep 1) (m := ⟨m.store, log⟩) hs hi hform.2 h)
      | none =>
        rw [hk] at h
        have hhead := Value.keyword?_eq_none_iff.1 hk
        -- The head is evaluated like the operands, and before them.
        rcases Run.bind_eq_ofExcept h with ⟨p, m₁, hp, h⟩ | ⟨f, hf, rfl⟩
        · have hd : Evaluates m.store i head (.ok p) m₁.store := hdeep 1 hs hi hform.1 hp
          obtain ⟨k₁, -⟩ := hd.keeps hs hi hform.1
          have hops₁ := k₁.allWithin hform.2
          rcases Run.bind_eq_ofExcept h with ⟨args, m₂, hargs, h⟩ | ⟨f, hf, rfl⟩
          · have hrest : EvaluatesAll m₁.store i ops (.ok args) m₂.store :=
              evalAll_sound (hdeep 1) k₁.wellFormed (k₁.lt_size hi) hops₁ hargs
            have hall := EvaluatesAll.cons hd hrest
            obtain ⟨k₂, hvs⟩ := hall.keeps hs hi hform
            obtain ⟨hpw, hargsw⟩ := hvs _ rfl
            exact .application hhead hall (apply_sound (hdeep 2) k₂.wellFormed hpw hargsw h)
          · exact .itemFails hhead (.tailFails hd
              (evalAll_sound (hdeep 1) k₁.wellFormed (k₁.lt_size hi) hops₁ hf))
        · exact .itemFails hhead (.headFails (hdeep 1 hs hi hform.1 hf))
  | _ =>
    obtain ⟨rfl, rfl⟩ := value_eq_ofExcept h
    exact .atom (by simp [Value.IsAtom, Value.kind])

/-- What evaluation at any depth limit gives can be derived, unless it was cut off. -/
theorem eval_sound (n : Nat) : Sound (eval n) := by
  -- A step may go one or two units deeper, so the hypothesis must hold for all smaller limits.
  induction n using Nat.strongRecOn with
  | ind n ih =>
    cases n with
    | zero =>
      intro i form m m' r hs hi hform h
      rw [eval] at h
      exact absurd (Prod.mk.inj h).1.symm (Outcome.ofExcept_ne_exhausted r)
    | succ n =>
      rw [eval]
      exact evalStep_sound fun k => ih (n - k) (by omega)

/-! ## What can be derived is what the evaluator gives -/

variable {s s' : Store}

/-- Evaluation at large limits ends as its first step does. -/
private theorem ends_of_evalStep {form : Value} {r : Except Fault Value} (enough : Nat)
    (h : ∀ n, enough ≤ n → Run.Ends (evalStep n (fun k => eval (n - k)) form i) s r s') :
    ∃ enough, ∀ n, enough ≤ n → Run.Ends (eval n form i) s r s' := by
  refine ⟨enough + 1, fun n hn => ?_⟩
  match n with
  | n + 1 =>
    rw [eval]
    exact h n (Nat.le_of_succ_le_succ hn)

private theorem lookup_ends {x : String} {v : Value} (h : s.lookup? i x = some v) :
    Run.Ends (Scope.lookup i x) s (.ok v) s :=
  fun log => ⟨log, by rw [Scope.lookup_apply, h]; rfl⟩

private theorem lookup_ends_unbound {x : String} (h : s.lookup? i x = none) :
    Run.Ends (Scope.lookup i x) s (.error (.unbound x)) s :=
  fun log => ⟨log, by rw [Scope.lookup_apply, h]; rfl⟩

private theorem runLambda_ends {id : Option ObjectId} {names : List String} {form : Value}
    {forms : List Value} :
    ∃ enough, ∀ limit n, enough ≤ limit → enough ≤ n →
      Run.Ends (Keyword.lambda.run limit (eval n) (.list id (symbols names) :: form :: forms) i) s
        (.ok (.closure s.objects (symbols names) (Value.bodyOf (form :: forms)) i))
        s.addObject.2 := by
  refine ⟨0, fun limit n _ _ => ?_⟩
  rw [Keyword.run, Keyword.runLambda_symbols]
  exact (Run.Ends.report rfl _).bind (.update _ _)

private theorem assign_ends {x : String} {v : Value} {j : FrameId} (h : s.find? i x = some j) :
    Run.Ends (Scope.assign i x v) s (.ok ()) (s.bind j x v) :=
  fun log => ⟨log, by rw [Scope.assign_apply, h]; rfl⟩

private theorem assign_ends_unbound {x : String} {v : Value} (h : s.find? i x = none) :
    Run.Ends (Scope.assign i x v) s (.error (.unbound x)) s :=
  fun log => ⟨log, by rw [Scope.assign_apply, h]; rfl⟩

mutual

/-- A derivation for a form is what evaluation gives at every limit that is large enough. -/
theorem Evaluates.complete {s s' : Store} {i : FrameId} {form : Value} {r : Except Fault Value} :
    Evaluates s i form r s' → s.WellFormed → i < s.frames.size → form.Within s.frames.size →
    ∃ enough, ∀ n, enough ≤ n → Run.Ends (eval n form i) s r s'
  | .symbol hr hget, hs, _, _ =>
    have hlookup := by rw [Store.lookup?, hs.find?_of_resolves hr]; exact hget
    ends_of_evalStep 0 fun _ _ => lookup_ends hlookup
  | .unbound hun, hs, _, _ =>
    have hlookup := by rw [Store.lookup?, hs.find?_of_unresolved hun]; rfl
    ends_of_evalStep 0 fun _ _ => lookup_ends_unbound hlookup
  | @Evaluates.atom _ _ v hv, _, _, _ => by
    refine ends_of_evalStep 0 fun n _ => ?_
    cases v with
    | symbol => exact absurd rfl hv.1
    | list => exact absurd rfl hv.2
    | _ => exact .pure _ _
  | .nothing hshow, _, _, _ => by
    obtain ⟨enough, hn⟩ := hshow.ends
    exact ends_of_evalStep enough fun n hle => hn n hle _
  | .special hword hk, hs, hi, hform => by
    obtain rfl := Keyword.written_iff.1 hword
    obtain ⟨enough, hn⟩ := hk.complete hs hi hform.2
    -- The rule runs one unit deeper, and that limit serves its own reports as well.
    refine ends_of_evalStep (enough + 1) fun n hle => ?_
    simp only [evalStep, Value.keyword?_eq_some_iff.2 rfl]
    exact (Run.Ends.report rfl _).bind (hn (n - 1) (n - 1) (by omega) (by omega))
  | .application hhead (.cons hd hrest) happ, hs, hi, ⟨hw, hws⟩ => by
    obtain ⟨k₁, hp⟩ := hd.keeps hs hi hw
    have hops := k₁.allWithin hws
    obtain ⟨k₂, hargs⟩ := hrest.keeps k₁.wellFormed (k₁.lt_size hi) hops
    obtain ⟨e₁, h₁⟩ := hd.complete hs hi hw
    obtain ⟨e₂, h₂⟩ := hrest.complete k₁.wellFormed (k₁.lt_size hi) hops
    obtain ⟨e₃, h₃⟩ := happ.complete k₂.wellFormed (k₂.within (hp _ rfl)) (hargs _ rfl)
    -- The items are evaluated one unit deeper and the procedure is called two units deeper.
    refine ends_of_evalStep (e₁ + e₂ + e₃ + 2) fun n hle => ?_
    simp only [evalStep, Value.keyword?_eq_none_iff.2 hhead]
    exact (h₁ (n - 1) (by omega)).bind ((h₂ (n - 1) (by omega)).bind
      (h₃ (n - 2) (n - 2) (by omega) (by omega)))
  | .itemFails hhead (.headFails hd), hs, hi, ⟨hw, _⟩ => by
    obtain ⟨e₁, h₁⟩ := hd.complete hs hi hw
    refine ends_of_evalStep (e₁ + 1) fun n hle => ?_
    simp only [evalStep, Value.keyword?_eq_none_iff.2 hhead]
    exact (h₁ (n - 1) (by omega)).bind_error
  | .itemFails hhead (.tailFails hd hrest), hs, hi, ⟨hw, hws⟩ => by
    obtain ⟨k₁, -⟩ := hd.keeps hs hi hw
    obtain ⟨e₁, h₁⟩ := hd.complete hs hi hw
    obtain ⟨e₂, h₂⟩ := hrest.complete k₁.wellFormed (k₁.lt_size hi) (k₁.allWithin hws)
    refine ends_of_evalStep (e₁ + e₂ + 1) fun n hle => ?_
    simp only [evalStep, Value.keyword?_eq_none_iff.2 hhead]
    exact (h₁ (n - 1) (by omega)).bind ((h₂ (n - 1) (by omega)).bind_error)

/-- The same for several forms and their values. -/
theorem EvaluatesAll.complete {s s' : Store} {i : FrameId} {forms : List Value}
    {r : Except Fault (List Value)} :
    EvaluatesAll s i forms r s' → s.WellFormed → i < s.frames.size →
    AllWithin s.frames.size forms →
    ∃ enough, ∀ n, enough ≤ n → Run.Ends (evalAll (eval n) i forms) s r s'
  | .nil, _, _, _ => ⟨0, fun _ _ => .pure _ _⟩
  | .cons hd hrest, hs, hi, ⟨hw, hws⟩ => by
    obtain ⟨k₁, -⟩ := hd.keeps hs hi hw
    obtain ⟨e₁, h₁⟩ := hd.complete hs hi hw
    obtain ⟨e₂, h₂⟩ := hrest.complete k₁.wellFormed (k₁.lt_size hi) (k₁.allWithin hws)
    refine ⟨e₁ + e₂, fun n hle => ?_⟩
    exact (h₁ n (by omega)).bind ((h₂ n (by omega)).bind (.pure _ _))
  | .headFails hd, hs, hi, ⟨hw, _⟩ => by
    obtain ⟨e₁, h₁⟩ := hd.complete hs hi hw
    exact ⟨e₁, fun n hle => (h₁ n hle).bind_error⟩
  | .tailFails hd hrest, hs, hi, ⟨hw, hws⟩ => by
    obtain ⟨k₁, -⟩ := hd.keeps hs hi hw
    obtain ⟨e₁, h₁⟩ := hd.complete hs hi hw
    obtain ⟨e₂, h₂⟩ := hrest.complete k₁.wellFormed (k₁.lt_size hi) (k₁.allWithin hws)
    refine ⟨e₁ + e₂, fun n hle => ?_⟩
    exact (h₁ n (by omega)).bind ((h₂ n (by omega)).bind_error)

/-- The same for several forms and their last value. -/
theorem EvaluatesLast.complete {s s' : Store} {i : FrameId} {last : Value} {forms : List Value}
    {r : Except Fault Value} :
    EvaluatesLast s i last forms r s' → s.WellFormed → i < s.frames.size →
    AllWithin s.frames.size forms →
    ∃ enough, ∀ n, enough ≤ n → Run.Ends (evalLast (eval n) i last forms) s r s'
  | .nil, _, _, _ => ⟨0, fun _ _ => .pure _ _⟩
  | .cons hd hrest, hs, hi, ⟨hw, hws⟩ => by
    obtain ⟨k₁, -⟩ := hd.keeps hs hi hw
    obtain ⟨e₁, h₁⟩ := hd.complete hs hi hw
    obtain ⟨e₂, h₂⟩ := hrest.complete k₁.wellFormed (k₁.lt_size hi) (k₁.allWithin hws)
    exact ⟨e₁ + e₂, fun n hle => (h₁ n (by omega)).bind (h₂ n (by omega))⟩
  | .fails hd, hs, hi, ⟨hw, _⟩ => by
    obtain ⟨e₁, h₁⟩ := hd.complete hs hi hw
    exact ⟨e₁, fun n hle => (h₁ n hle).bind_error⟩

/-- The same for the rules of keywords. -/
theorem Follows.complete {k : Keyword} {s s' : Store} {i : FrameId} {ops : List Value}
    {r : Except Fault Value} :
    Follows k s i ops r s' → s.WellFormed → i < s.frames.size → AllWithin s.frames.size ops →
    ∃ enough, ∀ limit n, enough ≤ limit → enough ≤ n →
      Run.Ends (k.run limit (eval n) ops i) s r s'
  | .misused hword hexpects htakes, _, _, _ => by
    obtain rfl := Keyword.written_iff.1 hword
    obtain ⟨-, rfl⟩ := Keyword.expects_iff.1 hexpects
    refine ⟨0, fun limit n _ _ => ?_⟩
    rw [Keyword.run_of_not_takes htakes]
    exact .fault _ _
  | .quote, _, _, _ => ⟨0, fun _ _ _ _ => .pure _ _⟩
  | .testFails hno htest, hs, hi, ⟨hw, _⟩ => by
    obtain ⟨e₁, h₁⟩ := htest.complete hs hi hw
    refine ⟨e₁, fun limit n _ hle => ?_⟩
    rw [Keyword.run, runCond_eq hno]
    exact (h₁ n hle).bind_error
  | .testHolds hno htest hfalse hnone hyes, hs, hi, ⟨hw, hy, _⟩ => by
    obtain ⟨k₁, -⟩ := htest.keeps hs hi hw
    obtain ⟨e₁, h₁⟩ := htest.complete hs hi hw
    obtain ⟨e₂, h₂⟩ := hyes.complete k₁.wellFormed (k₁.lt_size hi) (k₁.within hy)
    refine ⟨e₁ + e₂, fun limit n _ hle => ?_⟩
    rw [Keyword.run, runCond_eq hno]
    refine (h₁ n (by omega)).bind ?_
    rw [if_pos (Value.isTrue_eq_true_iff.2 ⟨hfalse, hnone⟩)]
    exact h₂ n (by omega)
  | .otherwise htest hb hother, hs, hi, ⟨hw, _, ho, _⟩ => by
    obtain ⟨k₁, -⟩ := htest.keeps hs hi hw
    obtain ⟨e₁, h₁⟩ := htest.complete hs hi hw
    obtain ⟨e₂, h₂⟩ := hother.complete k₁.wellFormed (k₁.lt_size hi) (k₁.within ho)
    refine ⟨e₁ + e₂, fun limit n _ hle => (h₁ n (by omega)).bind ?_⟩
    rw [Value.isTrue_eq_false_iff.2 hb, if_neg Bool.false_ne_true]
    exact h₂ n (by omega)
  | .missing htest hb, hs, hi, ⟨hw, _⟩ => by
    obtain ⟨e₁, h₁⟩ := htest.complete hs hi hw
    refine ⟨e₁, fun limit n _ hle => (h₁ n hle).bind ?_⟩
    rw [Value.isTrue_eq_false_iff.2 hb, if_neg Bool.false_ne_true]
    exact .pure _ _
  | .badTarget hk ht hshow, _, _, _ => by
    obtain ⟨enough, hn⟩ := hshow.ends
    refine ⟨enough, fun limit n hle _ => ?_⟩
    rw [run_of_badTarget hk ht]
    exact hn limit hle _
  | .formFails hk hform, hs, hi, ⟨_, hw, _⟩ => by
    obtain ⟨e₁, h₁⟩ := hform.complete hs hi hw
    refine ⟨e₁, fun limit n _ hle => ?_⟩
    rcases hk with rfl | rfl
    · exact (h₁ n hle).bind_error
    · exact (h₁ n hle).bind_error
  | .assign hform hr, hs, hi, ⟨_, hw, _⟩ => by
    obtain ⟨k₁, -⟩ := hform.keeps hs hi hw
    obtain ⟨e₁, h₁⟩ := hform.complete hs hi hw
    have hfind := k₁.wellFormed.find?_of_resolves hr
    exact ⟨e₁, fun limit n _ hle => (h₁ n hle).bind ((assign_ends hfind).bind (.pure _ _))⟩
  | .assignUnbound hform hun, hs, hi, ⟨_, hw, _⟩ => by
    obtain ⟨k₁, -⟩ := hform.keeps hs hi hw
    obtain ⟨e₁, h₁⟩ := hform.complete hs hi hw
    have hfind := k₁.wellFormed.find?_of_unresolved hun
    exact ⟨e₁, fun limit n _ hle => (h₁ n hle).bind ((assign_ends_unbound hfind).bind_error)⟩
  | .define hform, hs, hi, ⟨_, hw, _⟩ => by
    obtain ⟨e₁, h₁⟩ := hform.complete hs hi hw
    exact ⟨e₁, fun limit n _ hle => (h₁ n hle).bind ((Run.Ends.update _ _).bind (.pure _ _))⟩
  | .lambda, _, _, _ => runLambda_ends
  | .lambdaBegin, _, _, _ => runLambda_ends
  | .badParameters hparams hshow, _, _, _ => by
    obtain ⟨enough, hn⟩ := hshow.ends
    refine ⟨enough, fun limit n hle _ => ?_⟩
    rw [Keyword.run, runLambda_of_bad hparams]
    exact hn limit hle _
  | .begin hforms, hs, hi, hops => by
    obtain ⟨e₁, h₁⟩ := hforms.complete hs hi hops
    exact ⟨e₁, fun limit n _ hle => h₁ n hle⟩

/-- The same for applications. -/
theorem Applies.complete {s s' : Store} {v : Value} {args : List Value} {r : Except Fault Value} :
    Applies s v args r s' → s.WellFormed → v.Within s.frames.size →
    AllWithin s.frames.size args →
    ∃ enough, ∀ limit n, enough ≤ limit → enough ≤ n →
      Run.Ends (apply limit (eval n) v args) s r s'
  | .primitive hcall, _, _, _ => by
    obtain ⟨enough, hn⟩ := hcall
    exact ⟨enough, fun limit n hle _ => (Run.Ends.update _ _).bind (.lift (hn limit hle) _)⟩
  | @Applies.closure _ _ _ names _ _ args _ hlen hbody, hs, ⟨hc, _, hb⟩, hargs => by
    have k₁ := Keeps.callFrame hs names hargs hc
    obtain ⟨e₁, h₁⟩ := hbody.complete k₁.wellFormed (Store.addFrame_fst_lt ..) (k₁.within hb)
    refine ⟨e₁, fun limit n _ hle => ?_⟩
    obtain ⟨text, htext⟩ := applied_message limit names args.length
    rw [apply, Scope.makeFor_symbols hlen]
    exact (Run.Ends.update _ _).bind ((Run.Ends.report htext _).bind (h₁ n hle))
  | .miscounted hlen, _, _, _ => by
    refine ⟨0, fun limit n _ _ => ?_⟩
    rw [apply, Scope.makeFor_of_length_ne hlen]
    exact (Run.Ends.fault _ _).bind_error
  | .listFormal hlen hlist, _, _, _ => by
    refine ⟨0, fun limit n _ _ => ?_⟩
    rw [apply, Scope.makeFor_of_list hlen (exists_isList_iff.2 hlist)]
    exact (Run.Ends.fault _ _).bind_error
  | .badFormal hlen hlist hbad hshow, _, _, _ => by
    obtain ⟨enough, hn⟩ := hshow.ends
    refine ⟨enough, fun limit n hle _ => ?_⟩
    have hnolist : ∀ v ∈ _, Value.isList v = false := fun v hv => Bool.eq_false_iff.2 fun h =>
      let ⟨id, items, hmem⟩ := exists_isList_iff.1 ⟨v, hv, h⟩
      hlist id items hmem
    rw [apply, Scope.makeFor_of_bad hlen hnolist hbad]
    exact (hn limit hle _).bind_error
  | .notCallable hv hshow, _, _, _ => by
    obtain ⟨enough, hn⟩ := hshow.ends
    refine ⟨enough, fun limit n hle _ => ?_⟩
    rw [apply_of_not_procedure hv]
    exact hn limit hle _

end

/-! ## Adequacy -/

/-- The rules are deterministic: a form has one result and leaves one store. -/
theorem Evaluates.deterministic {form : Value} {s₁ s₂ : Store} {r₁ r₂ : Except Fault Value}
    (hs : s.WellFormed) (hi : i < s.frames.size) (hform : form.Within s.frames.size)
    (h₁ : Evaluates s i form r₁ s₁) (h₂ : Evaluates s i form r₂ s₂) : r₁ = r₂ ∧ s₁ = s₂ := by
  obtain ⟨e₁, hn₁⟩ := h₁.complete hs hi hform
  obtain ⟨e₂, hn₂⟩ := h₂.complete hs hi hform
  -- Both are what the evaluator gives at a limit that is large enough for both.
  obtain ⟨log₁, heq₁⟩ := hn₁ (e₁ + e₂) (Nat.le_add_right ..) (Log.new .warning)
  obtain ⟨log₂, heq₂⟩ := hn₂ (e₁ + e₂) (Nat.le_add_left ..) (Log.new .warning)
  obtain ⟨ho, hm⟩ := Prod.mk.inj (heq₁.symm.trans heq₂)
  exact ⟨Outcome.ofExcept_injective ho, congrArg Machine.store hm⟩

private theorem evaluate_eq {form : Value} {o : Outcome Value} (h : eval limit form i m = (o, m')) :
    evaluate limit form i m = (Outcome.ofExcept (o.toExcept .evaluating), m') := by
  unfold evaluate Run.guard
  rw [h]

/-- **Adequacy of the evaluator.** In a well-formed store, a value that evaluation gives at any depth
limit, or a fault other than reaching the limit, can be derived from the rules with the store that
evaluation leaves; and a result that can be derived is the one that evaluation gives, with the same
store, at every depth limit that is large enough. -/
theorem evaluate_adequate {form : Value} (hs : s.WellFormed) (hi : i < s.frames.size)
    (hform : form.Within s.frames.size) :
    (∀ limit log r m', evaluate limit form i ⟨s, log⟩ = (Outcome.ofExcept r, m') →
      (∀ f, r = .error f → f.kind ≠ .tooDeep) → Evaluates s i form r m'.store) ∧
    ∀ r s', Evaluates s i form r s' →
      ∃ enough, ∀ limit, enough ≤ limit → Run.Ends (evaluate limit form i) s r s' := by
  constructor
  · intro limit log r m' h hdeep
    rcases hrun : eval limit form i ⟨s, log⟩ with ⟨o, m₁⟩
    rw [evaluate_eq hrun] at h
    obtain ⟨ho, rfl⟩ := Prod.mk.inj h
    obtain rfl := Outcome.ofExcept_injective ho
    -- A run that was cut off shows as the fault that is excluded; every other one is derived.
    cases o with
    | value v => exact eval_sound limit (r := .ok v) hs hi hform hrun
    | fault f => exact eval_sound limit (r := .error f) hs hi hform hrun
    | exhausted => exact absurd rfl (hdeep _ rfl)
  · intro r s' h
    obtain ⟨enough, hn⟩ := h.complete hs hi hform
    exact ⟨enough, fun limit hle => (hn limit hle).guard .evaluating⟩

/-- `((lambda (y) (set! y (+ y 1)) (if 0 y)) 41)`. -/
private def increment : Value :=
  .literal [.literal [.symbol "lambda", .literal [.symbol "y"],
    .literal [.symbol "set!", .symbol "y", .literal [.symbol "+", .symbol "y", .int 1]],
    .literal [.symbol "if", .int 0, .symbol "y"]], .int 41]

/-- In a global frame this is 42, by the rules and at every large limit: the body is evaluated in turn
and zero counts as true. The frame of the call and what was assigned in it stay behind. -/
theorem evaluate_adequate_increment :
    Evaluates Store.empty.addStandard.2 0 increment (.ok (.int 42))
      ⟨#[⟨Store.standardBindings 0, none⟩, ⟨[("y", .int 42)], some 0⟩], 2⟩ ∧
    ∃ enough, ∀ limit, enough ≤ limit →
      Run.Ends (evaluate limit increment 0) Store.empty.addStandard.2 (.ok (.int 42))
        ⟨#[⟨Store.standardBindings 0, none⟩, ⟨[("y", .int 42)], some 0⟩], 2⟩ := by
  have hform : increment.Within Store.empty.addStandard.2.frames.size := by
    simp [increment, Value.Within, AllWithin]
  obtain ⟨hsound, hcomplete⟩ :=
    evaluate_adequate Store.WellFormed.empty.addStandard (Nat.zero_lt_one) hform
  -- The owner of a name is searched by well-founded recursion, which does not unfold by itself.
  have hrun : evaluate 20 increment 0 ⟨Store.empty.addStandard.2, Log.new .warning⟩ =
      (Outcome.ofExcept (.ok (.int 42)),
        ⟨⟨#[⟨Store.standardBindings 0, none⟩, ⟨[("y", .int 42)], some 0⟩], 2⟩,
          Log.new .warning⟩) := by with_unfolding_all rfl
  have hderived := hsound 20 _ _ _ hrun fun f hf => by cases hf
  exact ⟨hderived, hcomplete _ _ hderived⟩

end Lisplet
