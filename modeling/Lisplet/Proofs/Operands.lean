import Lisplet.Proofs.Adequacy
import Mathlib.Data.List.Basic

/-!
# The shapes of special forms

What a keyword does depends on the shape of its operands: whether there are as many as it takes, and
whether the target of an assignment or a definition is a symbol and the parameters of a closure are
symbols. Here the shapes are told once, with what the rule of the keyword comes to on each of them, so
that a property of all rules can be proved shape by shape.

Main definition: `Keyword.Shape`. Main statement: `Keyword.shape`.
-/

namespace Lisplet

namespace Keyword

/-- The shapes that the operands of a keyword can have. -/
inductive Shape : Keyword → List Value → Prop where
  | misused {k : Keyword} {ops : List Value} : ¬ k.Takes ops.length → Shape k ops
  | quote {v : Value} : Shape .quote [v]
  | cond {test yes : Value} {no : List Value} : no.length ≤ 1 → Shape .cond (test :: yes :: no)
  | assign {x : String} {form : Value} : Shape .assign [.symbol x, form]
  | define {x : String} {form : Value} : Shape .define [.symbol x, form]
  | badTarget {k : Keyword} {target form : Value} :
      k = .assign ∨ k = .define → target.name? = none → Shape k [target, form]
  | lambda {id : Option ObjectId} {names : List String} {form : Value} {forms : List Value} :
      Shape .lambda (.list id (symbols names) :: form :: forms)
  | badParameters {params form : Value} {forms : List Value} :
      (∀ id names, params ≠ .list id (symbols names)) → Shape .lambda (params :: form :: forms)
  | begin {ops : List Value} : Shape .begin ops

/-- A target is a symbol, or there is no name to bind. -/
theorem symbol_or_bad (target : Value) : (∃ x, target = .symbol x) ∨ target.name? = none := by
  cases target with
  | symbol x => exact Or.inl ⟨x, rfl⟩
  | _ => exact Or.inr rfl

/-- Operands have one of the shapes. -/
theorem shape (k : Keyword) (ops : List Value) : Shape k ops := by
  by_cases htakes : k.Takes ops.length
  · cases k with
    | quote =>
      obtain ⟨v, rfl⟩ := List.length_eq_one_iff.1 htakes
      exact .quote
    | cond =>
      rcases ops with _ | ⟨test, _ | ⟨yes, no⟩⟩
      · exact .misused (by simp [Keyword.Takes])
      · exact .misused (by simp [Keyword.Takes])
      · simp only [Keyword.Takes, List.length_cons] at htakes
        exact .cond (by omega)
    | assign =>
      obtain ⟨target, form, rfl⟩ := List.length_eq_two.1 htakes
      rcases symbol_or_bad target with ⟨x, rfl⟩ | hbad
      · exact .assign
      · exact .badTarget (Or.inl rfl) hbad
    | define =>
      obtain ⟨target, form, rfl⟩ := List.length_eq_two.1 htakes
      rcases symbol_or_bad target with ⟨x, rfl⟩ | hbad
      · exact .define
      · exact .badTarget (Or.inr rfl) hbad
    | lambda =>
      rcases ops with _ | ⟨params, _ | ⟨form, forms⟩⟩
      · exact .misused (by simp [Keyword.Takes])
      · exact .misused (by simp [Keyword.Takes])
      · by_cases hparams : ∃ id names, params = .list id (symbols names)
        · obtain ⟨id, names, rfl⟩ := hparams
          exact .lambda
        · exact .badParameters fun id names hp => hparams ⟨id, names, hp⟩
    | begin => exact .begin
  · exact .misused htakes

end Keyword

/-- The frame of a call is made after all frames, or the call fails and the machine is as before. -/
theorem Scope.makeFor_cases (limit : Nat) (formals args : List Value) (captured : FrameId)
    (m : Machine) :
    (∃ names, formals = symbols names ∧
      Scope.makeFor limit formals args captured m = (.value m.store.frames.size, { m with
        store := (m.store.addFrame (Bindings.ofPairs (names.zip args)) (some captured)).2 })) ∨
    ∃ o, Scope.makeFor limit formals args captured m = (o, m) ∧ ∀ i, o ≠ .value i := by
  by_cases hlen : args.length = formals.length
  · by_cases hlist : ∃ v ∈ formals, v.isList = true
    · rw [Scope.makeFor_of_list hlen hlist]
      exact Or.inr ⟨_, rfl, by simp⟩
    · rcases symbols_or_bad formals with ⟨names, rfl⟩ | ⟨names, bad, later, rfl, hbad⟩
      · rw [Scope.makeFor_symbols (by rw [hlen, length_symbols])]
        exact Or.inl ⟨names, rfl, rfl⟩
      · have hlist' : ∀ v ∈ symbols names ++ bad :: later, v.isList = false :=
          fun v hv => Bool.eq_false_iff.2 fun h => hlist ⟨v, hv, h⟩
        rw [Scope.makeFor_of_bad hlen hlist' hbad]
        right
        cases hshow : bad.describe limit with
        | value text =>
          rw [Run.faultShowing, Run.bind_of_value _ (by rw [Run.lift_apply, hshow])]
          exact ⟨_, rfl, by simp⟩
        | fault e =>
          rw [Run.faultShowing, Run.bind_of_fault _ (by rw [Run.lift_apply, hshow])]
          exact ⟨_, rfl, by simp⟩
        | exhausted =>
          rw [Run.faultShowing, Run.bind_of_exhausted _ (by rw [Run.lift_apply, hshow])]
          exact ⟨_, rfl, by simp⟩
  · rw [Scope.makeFor_of_length_ne hlen]
    exact Or.inr ⟨_, rfl, by simp⟩

/-- A frame for a call is made only of parameters that are symbols, each with its argument. -/
theorem Scope.makeFor_eq_value {limit : Nat} {formals args : List Value} {captured i : FrameId}
    {m m' : Machine} (h : Scope.makeFor limit formals args captured m = (.value i, m')) :
    ∃ names, formals = symbols names ∧ i = m.store.frames.size ∧ m' = { m with
      store := (m.store.addFrame (Bindings.ofPairs (names.zip args)) (some captured)).2 } := by
  rcases Scope.makeFor_cases limit formals args captured m with
    ⟨names, hformals, hmake⟩ | ⟨o, hmake, ho⟩
  · rw [hmake] at h
    cases h
    exact ⟨names, hformals, rfl, rfl⟩
  · rw [hmake] at h
    cases h
    exact absurd rfl (ho i)

end Lisplet
