import Lisplet.Scope

/-!
# Binding parameters

What making the frame of a call comes to, as one equation for each of the four ways in which it can
go: the counts differ, a parameter is a list, a parameter is no symbol, or all parameters are
symbols and are bound.

Main definition: `symbols`. Main statements: `Scope.makeFor_of_length_ne`, `Scope.makeFor_of_list`,
`Scope.makeFor_of_bad`, `Scope.makeFor_symbols`.
-/

namespace Lisplet

/-- The symbols of these names. -/
def symbols (names : List String) : List Value :=
  names.map .symbol

@[simp]
theorem length_symbols (names : List String) : (symbols names).length = names.length :=
  List.length_map ..

/-- The titles of symbols are their names. -/
theorem titleAll_symbols (limit : Nat) (names : List String) :
    titleAll limit (symbols names) = .value names := by
  induction names with
  | nil => rfl
  | cons x names ih =>
    show titleAll limit (.symbol x :: symbols names) = _
    simp only [titleAll, Value.ownText?, ih]
    rfl

/-- Values are symbols, or there is a first one that is none. -/
theorem symbols_or_bad (vs : List Value) :
    (∃ names, vs = symbols names) ∨
      ∃ names bad later, vs = symbols names ++ bad :: later ∧ bad.name? = none := by
  induction vs with
  | nil => exact Or.inl ⟨[], rfl⟩
  | cons v vs ih =>
    cases hv : v.name? with
    | none => exact Or.inr ⟨[], v, vs, rfl, hv⟩
    | some x =>
      have hx : v = .symbol x := by
        cases v with
        | symbol y =>
          cases hv
          rfl
        | _ => cases hv
      subst hx
      rcases ih with ⟨names, rfl⟩ | ⟨names, bad, later, rfl, hbad⟩
      · exact Or.inl ⟨x :: names, rfl⟩
      · exact Or.inr ⟨x :: names, bad, later, rfl, hbad⟩

/-- Values are symbols exactly if each of them has a name. -/
theorem all_name?_iff {vs : List Value} :
    vs.all (·.name?.isSome) = true ↔ ∃ names, vs = symbols names := by
  constructor
  · intro hall
    rcases symbols_or_bad vs with hnames | ⟨names, bad, later, rfl, hbad⟩
    · exact hnames
    · have := List.all_eq_true.1 hall bad (by simp)
      simp [hbad] at this
  · rintro ⟨names, rfl⟩
    simp [symbols, Value.name?]

namespace Bindings

/-- The pairs of symbols and values are the pairs of names and values. -/
theorem filterMap_named?_symbols (names : List String) (vs : List Value) :
    ((symbols names).zip vs).filterMap named? = names.zip vs := by
  induction names generalizing vs with
  | nil => rfl
  | cons x names ih =>
    cases vs with
    | nil => rfl
    | cons v vs =>
      show (((Value.symbol x, v) :: (symbols names).zip vs)).filterMap named? = _
      simp only [List.filterMap_cons, named?, Value.name?, Option.map_some, ih, List.zip_cons_cons]

/-- Symbols can all be bound. -/
theorem collect_symbols (names : List String) (vs : List Value) :
    collect ((symbols names).zip vs) = (ofPairs (names.zip vs), none) := by
  have hfind : ((symbols names).zip vs).find? (·.1.name?.isNone) = none := by
    rw [List.find?_eq_none]
    intro p hp
    have hmem : p.1 ∈ symbols names := (List.of_mem_zip hp).1
    obtain ⟨x, -, hx⟩ := List.mem_map.1 hmem
    simp [← hx, Value.name?]
  unfold collect
  rw [hfind, filterMap_named?_symbols]

/-- Binding stops at the first key that is no symbol. -/
theorem collect_bad {names : List String} {bad : Value} {later vs : List Value}
    (hlen : vs.length = (symbols names ++ bad :: later).length) (hbad : bad.name? = none) :
    (collect ((symbols names ++ bad :: later).zip vs)).2 = some bad := by
  -- The lengths agree, so the bad key is paired with a value and the search gets to it.
  have hfind : ∃ v, ((symbols names ++ bad :: later).zip vs).find? (·.1.name?.isNone) =
      some (bad, v) := by
    induction names generalizing vs with
    | nil =>
      cases vs with
      | nil => simp at hlen
      | cons v vs => exact ⟨v, by simp [symbols, hbad]⟩
    | cons x names ih =>
      cases vs with
      | nil => simp at hlen
      | cons v vs =>
        have hlen' : vs.length = (symbols names ++ bad :: later).length := by
          simp only [List.length_append, List.length_cons, length_symbols] at hlen ⊢
          omega
        obtain ⟨w, hw⟩ := ih hlen'
        refine ⟨w, ?_⟩
        show List.find? _ ((Value.symbol x, v) :: (symbols names ++ bad :: later).zip vs) = _
        rw [List.find?_cons_of_neg (by simp [Value.name?]), hw]
  obtain ⟨v, hv⟩ := hfind
  unfold collect
  rw [hv]

end Bindings

namespace Scope

variable {limit : Nat} {formals args : List Value} {captured : FrameId}

/-- A call with the wrong number of arguments makes no frame. -/
theorem makeFor_of_length_ne (h : args.length ≠ formals.length) :
    makeFor limit formals args captured =
      Run.fault (.arity (some Keyword.lambda.name) formals.length args.length) := by
  rw [makeFor, if_neg h]

theorem any_isList_zip (h : args.length = formals.length) :
    (formals.zip args).any (·.1.isList) = formals.any (·.isList) := by
  have hfst : (formals.zip args).map (·.1) = formals := List.map_fst_zip (Nat.le_of_eq h.symm)
  calc (formals.zip args).any (·.1.isList)
      = ((formals.zip args).map (·.1)).any (·.isList) := by rw [List.any_map]; rfl
    _ = formals.any (·.isList) := by rw [hfst]

theorem any_isList_symbols (names : List String) : (symbols names).any (·.isList) = false := by
  rw [List.any_eq_false]
  intro v hv
  obtain ⟨x, -, rfl⟩ := List.mem_map.1 hv
  simp [Value.isList]

/-- A list among the parameters fails the call. -/
theorem makeFor_of_list (hlen : args.length = formals.length)
    (hlist : ∃ v ∈ formals, v.isList = true) :
    makeFor limit formals args captured = Run.fault .listAsKey := by
  have hany : formals.any (·.isList) = true := List.any_eq_true.2 hlist
  rw [makeFor, if_pos hlen, make, any_isList_zip hlen, hany, if_pos rfl]

/-- Otherwise the first parameter that is no symbol fails the call. -/
theorem makeFor_of_bad {names : List String} {bad : Value} {later : List Value}
    (hlen : args.length = (symbols names ++ bad :: later).length)
    (hlist : ∀ v ∈ symbols names ++ bad :: later, v.isList = false) (hbad : bad.name? = none) :
    makeFor limit (symbols names ++ bad :: later) args captured =
      Run.faultShowing limit bad .cannotBind := by
  have hany : (symbols names ++ bad :: later).any (·.isList) = false := by
    rw [List.any_eq_false]
    intro v hv
    simp [hlist v hv]
  have hcollect := Bindings.collect_bad hlen hbad
  -- What was collected before the bad parameter plays no part, so only the parameter is kept.
  rw [makeFor, if_pos hlen, make, any_isList_zip hlen, hany, if_neg Bool.false_ne_true]
  revert hcollect
  rcases Bindings.collect ((symbols names ++ bad :: later).zip args) with ⟨b, found⟩
  intro hfound
  cases hfound
  rfl

/-- Parameters that are symbols are bound to the arguments, in a new frame inside the captured
one. -/
theorem makeFor_symbols {names : List String} (hlen : args.length = names.length) :
    makeFor limit (symbols names) args captured =
      Run.update fun s => s.addFrame (Bindings.ofPairs (names.zip args)) (some captured) := by
  have hlen' : args.length = (symbols names).length := by rw [hlen, length_symbols]
  rw [makeFor, if_pos hlen', make, any_isList_zip hlen', any_isList_symbols,
    if_neg Bool.false_ne_true, Bindings.collect_symbols]

end Scope

end Lisplet
