import Mathlib.Data.List.Induction
import Lisplet.Proofs.Execution

/-!
# The frame of a call

A call is evaluated in a frame of its own, inside the frame that its closure was made in. What the frame
binds is told by two places of each parameter among the parameters: it stands where it occurs first, and it
is bound to the argument at its last occurrence. From the new frame a parameter is seen as its argument,
and everything else as it is seen from the captured frame.

The parameters and arguments are merged before they are bound, and merging and binding go through them in
the same way: to bind merged pairs once more, one after the other, changes nothing.

Main definitions: `InFirstOrder`, `IsLast`. Main statements: `Bindings.names_ofPairs`,
`Bindings.get?_ofPairs`, `Bindings.setAll_ofPairs`, `Scope.makeFor_exact`.
-/

namespace Lisplet

/-! ## Repeated names -/

/-- The names of a list, each once, in the order in which they first occur in it. -/
structure InFirstOrder (firsts names : List String) : Prop where
  mem_iff : ∀ x, x ∈ firsts ↔ x ∈ names
  ordered : firsts.Pairwise fun x y => names.idxOf x < names.idxOf y

namespace InFirstOrder

variable {firsts names : List String} {x : String}

protected theorem nil : InFirstOrder [] [] :=
  ⟨fun _ => Iff.rfl, List.Pairwise.nil⟩

theorem nodup (h : InFirstOrder firsts names) : firsts.Nodup := by
  refine h.ordered.imp fun {y z} hlt => ?_
  rintro rfl
  exact Nat.lt_irrefl _ hlt

/-- The places of the names stay what they are when names come behind. -/
private theorem ordered_append (h : InFirstOrder firsts names) (later : List String) :
    firsts.Pairwise fun x y => (names ++ later).idxOf x < (names ++ later).idxOf y := by
  refine h.ordered.imp_of_mem fun {y z} hy hz hlt => ?_
  rwa [List.idxOf_append_of_mem ((h.mem_iff y).1 hy), List.idxOf_append_of_mem ((h.mem_iff z).1 hz)]

/-- A name that occurred before is passed over. -/
theorem repeated (h : InFirstOrder firsts names) (hx : x ∈ names) : InFirstOrder firsts (names ++ [x]) := by
  refine ⟨fun y => ?_, h.ordered_append [x]⟩
  rw [h.mem_iff, List.mem_append, List.mem_singleton]
  exact ⟨Or.inl, fun hy => hy.elim id fun heq => heq ▸ hx⟩

/-- A name that did not occur before comes behind the others. -/
theorem new (h : InFirstOrder firsts names) (hx : x ∉ names) :
    InFirstOrder (firsts ++ [x]) (names ++ [x]) := by
  refine ⟨fun y => ?_, List.pairwise_append.2 ⟨h.ordered_append [x], List.pairwise_singleton .., ?_⟩⟩
  · rw [List.mem_append, List.mem_append, h.mem_iff]
  · intro y hy z hz
    obtain rfl := List.mem_singleton.1 hz
    have hmem : y ∈ names := (h.mem_iff y).1 hy
    rw [List.idxOf_append_of_mem hmem, List.idxOf_append_of_notMem hx]
    exact Nat.lt_of_lt_of_le (List.idxOf_lt_length_of_mem hmem) (Nat.le_add_right ..)

end InFirstOrder

/-- The name stands at the place, and at no later one. -/
def IsLast (names : List String) (x : String) (k : Nat) : Prop :=
  names[k]? = some x ∧ ∀ l, names[l]? = some x → l ≤ k

theorem IsLast.unique {names : List String} {x : String} {k l : Nat} (hk : IsLast names x k)
    (hl : IsLast names x l) : k = l :=
  Nat.le_antisymm (hl.2 k hk.1) (hk.2 l hl.1)

theorem exists_isLast {names : List String} {x : String} (h : x ∈ names) : ∃ k, IsLast names x k := by
  induction names using List.reverseRecOn with
  | nil => cases h
  | append_singleton names y ih =>
    have hlt : ∀ {l}, (names ++ [y])[l]? = some x → l < names.length + 1 := by
      intro l hl
      simpa using (List.getElem?_eq_some_iff.1 hl).1
    by_cases hy : y = x
    · refine ⟨names.length, by rw [List.getElem?_concat_length, hy], fun l hl => ?_⟩
      exact Nat.le_of_lt_succ (hlt hl)
    · have hx : x ∈ names := by simpa [Ne.symm hy] using h
      obtain ⟨k, hk, hlast⟩ := ih hx
      have hk' := (List.getElem?_eq_some_iff.1 hk).1
      refine ⟨k, by rw [List.getElem?_append_left hk', hk], fun l hl => ?_⟩
      -- The new name is another one, so the place is one of the old ones.
      rcases Nat.lt_succ_iff_lt_or_eq.1 (hlt hl) with hold | rfl
      · rw [List.getElem?_append_left hold] at hl
        exact hlast l hl
      · rw [List.getElem?_concat_length] at hl
        exact absurd (Option.some.inj hl) hy

/-! ## Merging and binding -/

namespace Bindings

variable {b : Bindings} {pairs : List (String × Value)} {x : String} {v : Value}

theorem ofPairs_concat (pairs : List (String × Value)) (p : String × Value) :
    ofPairs (pairs ++ [p]) = (ofPairs pairs).set p.1 p.2 :=
  List.foldl_append ..

/-- Merged pairs bind the names of the pairs in the order in which they first occur. -/
theorem names_ofPairs (pairs : List (String × Value)) :
    InFirstOrder (ofPairs pairs).names (pairs.map (·.1)) := by
  induction pairs using List.reverseRecOn with
  | nil => exact .nil
  | append_singleton pairs p ih =>
    rw [ofPairs_concat, names_set, List.map_append]
    have hbinds : (ofPairs pairs).binds p.1 = true ↔ p.1 ∈ pairs.map (·.1) :=
      binds_iff_mem_names.trans (ih.mem_iff p.1)
    split
    · next hp =>
      rw [List.append_nil]
      exact ih.repeated (hbinds.1 hp)
    · next hp => exact ih.new fun hmem => hp (hbinds.2 hmem)

/-- Merged pairs bind a name to the value of its last pair. -/
theorem get?_ofPairs {k : Nat} (hk : pairs[k]? = some (x, v))
    (hlast : ∀ l w, pairs[l]? = some (x, w) → l ≤ k) : (ofPairs pairs).get? x = some v := by
  induction pairs using List.reverseRecOn with
  | nil => cases hk
  | append_singleton pairs p ih =>
    rw [ofPairs_concat]
    have hend : (pairs ++ [p])[pairs.length]? = some p := List.getElem?_concat_length
    rcases Nat.lt_trichotomy k pairs.length with hlt | rfl | hgt
    · -- A later pair of the same name would be a later place.
      have hne : p.1 ≠ x := by
        rintro rfl
        have := hlast pairs.length p.2 hend
        omega
      rw [get?_set_of_ne _ _ hne]
      refine ih ?_ fun l w hl => ?_
      · rwa [List.getElem?_append_left hlt] at hk
      · have hl' := (List.getElem?_eq_some_iff.1 hl).1
        exact hlast l w (by rwa [List.getElem?_append_left hl'])
    · rw [hend] at hk
      cases hk
      exact get?_set_self ..
    · have hout : (pairs ++ [p]).length ≤ k := by
        rw [List.length_append, List.length_singleton]
        exact hgt
      rw [List.getElem?_eq_none hout] at hk
      cases hk

/-- A parameter is bound to the argument at its last place. -/
theorem get?_of_isLast {names : List String} {args : List Value} {k : Nat}
    (hlen : args.length = names.length) (h : IsLast names x k) :
    ∃ v, args[k]? = some v ∧ (ofPairs (names.zip args)).get? x = some v := by
  have hk : k < args.length := hlen ▸ (List.getElem?_eq_some_iff.1 h.1).1
  have hv : args[k]? = some args[k] := List.getElem?_eq_getElem hk
  refine ⟨args[k], hv, get?_ofPairs (List.getElem?_zip_eq_some.2 ⟨h.1, hv⟩) fun l w hl => ?_⟩
  exact h.2 l (List.getElem?_zip_eq_some.1 hl).1

/-- A name that is not bound is bound behind the others. -/
theorem set_of_not_mem (h : x ∉ b.names) : b.set x v = b ++ [(x, v)] := by
  induction b with
  | nil => rfl
  | cons p b ih =>
    obtain ⟨hp, hb⟩ := not_or.1 (List.mem_cons.not.1 h)
    rw [set, if_neg (Ne.symm hp), ih hb, List.cons_append]

/-- Bindings of different names are merged already. -/
theorem ofPairs_of_nodup (h : b.names.Nodup) : ofPairs b = b := by
  induction b using List.reverseRecOn with
  | nil => rfl
  | append_singleton b p ih =>
    rw [names, List.map_append, List.nodup_append] at h
    obtain ⟨hb, -, hp⟩ := h
    have hnew : p.1 ∉ names b := fun hmem => hp _ hmem _ (List.mem_singleton_self _) rfl
    rw [ofPairs_concat, ih hb, set_of_not_mem hnew]

/-- To bind merged pairs one after the other, where nothing is bound, gives what they are. -/
theorem setAll_ofPairs (pairs : List (String × Value)) : setAll [] (ofPairs pairs) = ofPairs pairs :=
  ofPairs_of_nodup (names_ofPairs pairs).nodup

end Bindings

/-! ## The frame -/

/-- To change the bindings of a frame that was just added is to add it with the others. -/
theorem Store.modify_addFrame (s : Store) (b : Bindings) (outer : Option FrameId)
    (f : Bindings → Bindings) :
    (s.addFrame b outer).2.modify (s.addFrame b outer).1 f = (s.addFrame (f b) outer).2 := by
  simp only [Store.modify, Store.addFrame, Store.mk.injEq, and_true]
  apply Array.ext_getElem?
  intro i
  rw [Array.getElem?_modify, Array.getElem?_push, Array.getElem?_push]
  split
  · next hi => rw [if_pos hi.symm, if_pos hi.symm, Option.map_some]
  · next hi => rw [if_neg (Ne.symm hi), if_neg (Ne.symm hi)]

namespace Scope

variable {limit : Nat} {names : List String} {args : List Value} {captured : FrameId} {m : Machine}

/-- Symbols can all be bound in a frame, and they are merged first. -/
theorem bindKeys_symbols (hlen : args.length = names.length) (i : FrameId) (n : Machine) :
    bindKeys limit i ((symbols names).zip args) n = (.value (), { n with
      store := n.store.modify i (·.setAll (Bindings.ofPairs (names.zip args))) }) := by
  have hlen' : args.length = (symbols names).length := by rw [hlen, length_symbols]
  rw [bindKeys, any_isList_zip hlen', any_isList_symbols, if_neg Bool.false_ne_true,
    Bindings.collect_symbols]
  rfl

/-- The frame of a call is what comes of making an empty frame and binding the parameters in it. -/
theorem makeFor_eq_bindKeys (hlen : args.length = names.length) :
    makeFor limit (symbols names) args captured m = (do
      let i ← make limit [] (some captured)
      bindKeys limit i ((symbols names).zip args)
      pure i : Run FrameId) m := by
  have hempty : make limit [] (some captured) m = (.value (m.store.addFrame [] (some captured)).1,
      { m with store := (m.store.addFrame [] (some captured)).2 }) := rfl
  rw [Run.bind_of_value _ hempty, Run.bind_of_value _ (bindKeys_symbols hlen _ _),
    makeFor_symbols hlen, Run.update_apply, Run.pure_apply, Store.modify_addFrame,
    Bindings.setAll_ofPairs]
  rfl

/-- What making the frame of a call comes to, for parameters that are symbols and may be repeated. It is
refused exactly if there are more or fewer arguments than parameters; the fault has both counts, and nothing
has changed. Otherwise there is one new frame, inside the captured one, and all other frames are what they
were. The new frame binds each parameter once, in the order in which they first occur, to the argument at
its last occurrence, and this is what is seen for it from there. Any other symbol is seen as it is seen from
the captured frame, or it is bound in neither. An empty frame in which the parameters are bound one after
the other is the same. -/
theorem makeFor_exact (limit : Nat) (names : List String) (args : List Value) (captured : FrameId)
    (m : Machine) :
    (makeFor limit (symbols names) args captured m =
        (.fault (.arity (some Keyword.lambda.name) names.length args.length), m) ↔
      args.length ≠ names.length) ∧
    (args.length = names.length → ∃ i b m',
      makeFor limit (symbols names) args captured m = (.value i, m') ∧
      m'.log = m.log ∧ m'.store.objects = m.store.objects ∧
      m.store.frame? i = none ∧ m'.store.frame? i = some ⟨b, some captured⟩ ∧
      (∀ j, j ≠ i → m'.store.frame? j = m.store.frame? j) ∧
      InFirstOrder b.names names ∧
      (∀ x ∈ names, ∃ k v, IsLast names x k ∧ args[k]? = some v ∧ b.get? x = some v ∧
        lookup i x m' = (.value v, m')) ∧
      (∀ x, x ∉ names →
        (∃ v, lookup captured x m = (.value v, m) ∧ lookup i x m' = (.value v, m')) ∨
        lookup captured x m = (.fault (.unbound x), m) ∧ lookup i x m' = (.fault (.unbound x), m')) ∧
      makeFor limit (symbols names) args captured m = (do
        let i ← make limit [] (some captured)
        bindKeys limit i ((symbols names).zip args)
        pure i : Run FrameId) m) := by
  constructor
  · constructor
    · intro hfault hlen
      rw [makeFor_symbols hlen] at hfault
      cases hfault
    · intro hlen
      rw [makeFor_of_length_ne (by rwa [length_symbols]), length_symbols]
      rfl
  · intro hlen
    let b := Bindings.ofPairs (names.zip args)
    let m' : Machine := { m with store := (m.store.addFrame b (some captured)).2 }
    have hmake : makeFor limit (symbols names) args captured m = (.value m.store.frames.size, m') := by
      rw [makeFor_symbols hlen]
      rfl
    have hzip : (names.zip args).map (·.1) = names := List.map_fst_zip (Nat.le_of_eq hlen.symm)
    have hnames : InFirstOrder b.names names := hzip ▸ Bindings.names_ofPairs (names.zip args)
    -- What is bound in the new frame hides what the captured frame shows, and nothing else does.
    have hlookup : ∀ x, m'.store.lookup? m.store.frames.size x =
        (b.get? x).or (m.store.lookup? captured x) := Store.lookup?_addFrame m.store b captured
    refine ⟨m.store.frames.size, b, m', hmake, rfl, rfl, ?_, ?_, ?_, hnames, ?_, ?_,
      makeFor_eq_bindKeys hlen⟩
    · exact Array.getElem?_eq_none (Nat.le_refl _)
    · rw [Store.frame?_addFrame, if_pos rfl]
    · intro j hj
      rw [Store.frame?_addFrame, if_neg hj]
    · intro x hx
      obtain ⟨k, hk⟩ := exists_isLast hx
      obtain ⟨v, hv, hbound⟩ := Bindings.get?_of_isLast hlen hk
      refine ⟨k, v, hk, hv, hbound, ?_⟩
      rw [lookup_apply, hlookup, hbound, Option.some_or]
    · intro x hx
      have hunbound : b.get? x = none := by
        rw [← Option.not_isSome_iff_eq_none]
        exact fun hb => hx ((hnames.mem_iff x).1 (Bindings.binds_iff_mem_names.1 hb))
      rw [lookup_apply, lookup_apply, hlookup, hunbound, Option.none_or]
      cases m.store.lookup? captured x with
      | some v => exact Or.inl ⟨v, rfl, rfl⟩
      | none => exact Or.inr ⟨rfl, rfl⟩

/-- A machine with one frame, which binds a name that will be a parameter and one that will not. -/
private def baseMachine : Machine :=
  ⟨(Store.empty.addFrame [("x", .int 0), ("z", .int 9)] none).2, Log.new .warning⟩

private theorem lookup_baseMachine :
    lookup 0 "z" baseMachine = (.value (.int 9), baseMachine) ∧
      lookup 0 "w" baseMachine = (.fault (.unbound "w"), baseMachine) := by
  have hz : baseMachine.store.find? 0 "z" = some 0 := Store.find?_of_binds rfl rfl
  have hw : baseMachine.store.find? 0 "w" = none := Store.find?_of_outer_none rfl rfl rfl
  rw [lookup_apply, lookup_apply, Store.lookup?, Store.lookup?, hz, hw]
  exact ⟨rfl, rfl⟩

private theorem isLast_repeated :
    IsLast ["x", "y", "x"] "x" 2 ∧ IsLast ["x", "y", "x"] "y" 1 := by
  refine ⟨⟨rfl, fun l hl => ?_⟩, ⟨rfl, fun l hl => ?_⟩⟩
  · exact Nat.le_of_lt_succ (List.getElem?_eq_some_iff.1 hl).1
  · rcases l with _ | _ | _ | l
    · exact Nat.zero_le 1
    · exact Nat.le_refl 1
    · exact absurd hl (by decide)
    · cases hl

/-- A parameter that occurs twice has its second argument and hides the outer binding of its name; what is
bound outside, or nowhere, is seen as before; and an argument too few is refused. -/
theorem makeFor_exact_repeated :
    (∃ i b m', makeFor 0 (symbols ["x", "y", "x"]) [.int 1, .int 2, .int 3] 0 baseMachine =
        (.value i, m') ∧
      m'.store.frame? i = some ⟨b, some 0⟩ ∧ InFirstOrder b.names ["x", "y", "x"] ∧
      lookup i "x" m' = (.value (.int 3), m') ∧ lookup i "y" m' = (.value (.int 2), m') ∧
      lookup i "z" m' = (.value (.int 9), m') ∧ lookup i "w" m' = (.fault (.unbound "w"), m')) ∧
    makeFor 0 (symbols ["x", "y", "x"]) [.int 1, .int 2] 0 baseMachine =
      (.fault (.arity (some "lambda") 3 2), baseMachine) := by
  refine ⟨?_, (makeFor_exact 0 ["x", "y", "x"] [.int 1, .int 2] 0 baseMachine).1.2 (by decide)⟩
  obtain ⟨i, b, m', hmake, -, -, -, hframe, -, hnames, hseen, houter, -⟩ :=
    (makeFor_exact 0 ["x", "y", "x"] [.int 1, .int 2, .int 3] 0 baseMachine).2 rfl
  refine ⟨i, b, m', hmake, hframe, hnames, ?_, ?_, ?_, ?_⟩
  · obtain ⟨k, v, hlast, hv, -, hlookup⟩ := hseen "x" (by decide)
    obtain rfl := hlast.unique isLast_repeated.1
    cases hv
    exact hlookup
  · obtain ⟨k, v, hlast, hv, -, hlookup⟩ := hseen "y" (by decide)
    obtain rfl := hlast.unique isLast_repeated.2
    cases hv
    exact hlookup
  · rcases houter "z" (by decide) with ⟨v, hv, hlookup⟩ | ⟨hunbound, -⟩
    · cases lookup_baseMachine.1.symm.trans hv
      exact hlookup
    · cases lookup_baseMachine.1.symm.trans hunbound
  · rcases houter "w" (by decide) with ⟨v, hv, -⟩ | ⟨-, hlookup⟩
    · cases lookup_baseMachine.2.symm.trans hv
    · exact hlookup

end Scope

end Lisplet
