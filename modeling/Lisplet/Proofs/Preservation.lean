import Lisplet.Proofs.BigStep
import Lisplet.Proofs.Run

/-!
# Evaluation keeps stores well-formed

Every rule of evaluation leads from a well-formed store to a well-formed store that has all frames of
the first one, and its value belongs to the store that it leaves. The one thing that all rules have in
common is that a value is never made from nothing: a closure captures the current frame, and a
primitive computes with its arguments.

Main definition: `Keeps`. Main statement: `Evaluates.keeps`.
-/

namespace Lisplet

/-! ## Primitives -/

namespace Primitive

/-- Only a list has items. -/
theorem items_eq_value {limit : Nat} {p : Primitive} {v : Value} {vs : List Value}
    (h : p.items limit v = .value vs) : ∃ id, v = .list id vs := by
  cases v with
  | list id items =>
    cases h
    exact ⟨id, rfl⟩
  | _ =>
    obtain ⟨text, -, hfault⟩ := Outcome.bind_eq_value h
    cases hfault

/-- The items of a value, which is its own only item if it is no list, have every property of the value
that lists pass on to their items. -/
theorem asList_inherits {P : Value → Prop} (hitem : ∀ id vs, P (.list id vs) → ∀ v ∈ vs, P v)
    {v : Value} (h : P v) : ∀ w ∈ v.asList, P w := by
  cases v with
  | list id items => exact hitem id items h
  | _ =>
    intro w hw
    exact List.mem_singleton.1 hw ▸ h

/-- What a primitive computes has every property of its arguments that plain values have, that lists pass
on to their items, and that new lists take from them. -/
theorem call_inherits {P : Value → Prop} (hnone : P .noValue) (hbool : ∀ b, P (.bool b))
    (hint : ∀ n, P (.int n)) (hitem : ∀ id vs, P (.list id vs) → ∀ v ∈ vs, P v)
    (hnew : ∀ id vs, (∀ v ∈ vs, P v) → P (.list (some id) vs)) {limit : Nat} {id : ObjectId}
    {p : Primitive} {args : List Value} {v : Value} (h : p.call limit id args = .value v)
    (hargs : ∀ a ∈ args, P a) : P v := by
  match args with
  | [] =>
    cases p with
    | list =>
      cases h
      exact hnew _ _ hargs
    | _ => cases h
  | [a] =>
    have ha := hargs a (List.mem_singleton_self a)
    cases p with
    | list =>
      cases h
      exact hnew _ _ hargs
    | not | isList | isNull | isSymbol =>
      cases h
      exact hbool _
    | length =>
      obtain ⟨vs, -, hv⟩ := Outcome.bind_eq_value h
      cases hv
      exact hint _
    | car =>
      obtain ⟨vs, hvs, hv⟩ := Outcome.bind_eq_value h
      obtain ⟨_, rfl⟩ := items_eq_value hvs
      cases hv
      cases vs with
      | nil => exact hnone
      | cons w ws => exact hitem _ _ ha w (List.mem_cons_self ..)
    | cdr =>
      obtain ⟨vs, hvs, hv⟩ := Outcome.bind_eq_value h
      obtain ⟨_, rfl⟩ := items_eq_value hvs
      cases hv
      exact hnew _ _ fun w hw => hitem _ _ ha w (List.mem_of_mem_tail hw)
    | _ => cases h
  | [a, b] =>
    cases p with
    | list =>
      cases h
      exact hnew _ _ hargs
    | cons =>
      -- The items of both arguments, where a value that is no list counts as its only item.
      cases h
      refine hnew _ _ fun w hw => ?_
      rcases List.mem_append.1 hw with hw | hw
      · exact asList_inherits hitem (hargs a (by simp)) w hw
      · exact asList_inherits hitem (hargs b (by simp)) w hw
    | add | sub | mul | div =>
      obtain ⟨_, -, h⟩ := Outcome.bind_eq_value h
      obtain ⟨_, -, h⟩ := Outcome.bind_eq_value h
      obtain ⟨_, -, h⟩ := Outcome.bind_eq_value h
      cases h
      exact hint _
    | eqNumber | eqIdentity | eqStructure | less | greater | lessEq | greaterEq =>
      obtain ⟨_, -, h⟩ := Outcome.bind_eq_value h
      cases h
      exact hbool _
    | _ => cases h
  | a :: b :: c :: rest =>
    cases p with
    | list =>
      cases h
      exact hnew _ _ hargs
    | _ => cases h

/-- A value that a primitive computes holds no closures but those of its arguments. -/
theorem call_within {limit n : Nat} {id : ObjectId} {p : Primitive} {args : List Value} {v : Value}
    (h : p.call limit id args = .value v) (hargs : AllWithin n args) : v.Within n :=
  call_inherits trivial (fun _ => trivial) (fun _ => trivial) (fun _ _ => allWithin_iff.1)
    (fun _ _ => allWithin_iff.2) h (allWithin_iff.1 hargs)

end Primitive

/-! ## Rules -/

/-- What evaluation does to a well-formed store: it stays well-formed and loses no frame. -/
structure Keeps (s s' : Store) : Prop where
  wellFormed : s'.WellFormed
  size_le : s.frames.size ≤ s'.frames.size

namespace Keeps

variable {s s₁ s₂ : Store}

theorem refl (hs : s.WellFormed) : Keeps s s :=
  ⟨hs, Nat.le_refl _⟩

theorem trans (h₁ : Keeps s s₁) (h₂ : Keeps s₁ s₂) : Keeps s s₂ :=
  ⟨h₂.wellFormed, Nat.le_trans h₁.size_le h₂.size_le⟩

/-- A frame of the store is a frame of the store after it. -/
theorem lt_size (h : Keeps s s₁) {i : FrameId} (hi : i < s.frames.size) : i < s₁.frames.size :=
  Nat.lt_of_lt_of_le hi h.size_le

/-- A value of the store is a value of the store after it. -/
theorem within (h : Keeps s s₁) {v : Value} (hv : v.Within s.frames.size) :
    v.Within s₁.frames.size :=
  hv.mono h.size_le

theorem allWithin (h : Keeps s s₁) {vs : List Value} (hvs : AllWithin s.frames.size vs) :
    AllWithin s₁.frames.size vs :=
  hvs.mono h.size_le

theorem bind (h : Keeps s s₁) {j : FrameId} {x : String} {v : Value}
    (hv : v.Within s₁.frames.size) : Keeps s (s₁.bind j x v) :=
  ⟨h.wellFormed.bind hv, by rw [Store.size_frames_bind]; exact h.size_le⟩

theorem addObject (hs : s.WellFormed) : Keeps s s.addObject.2 :=
  ⟨hs.addObject, Nat.le_refl _⟩

end Keeps

/-- If there is a value, it belongs to the store. -/
def ResultWithin (s : Store) (r : Except Fault Value) : Prop :=
  ∀ v, r = .ok v → v.Within s.frames.size

/-- If there are values, they belong to the store. -/
def ResultsWithin (s : Store) (r : Except Fault (List Value)) : Prop :=
  ∀ vs, r = .ok vs → AllWithin s.frames.size vs

namespace ResultWithin

variable {s : Store} {v : Value} {f : Fault}

theorem ok (h : v.Within s.frames.size) : ResultWithin s (.ok v) := by
  intro w hw
  cases hw
  exact h

theorem error : ResultWithin s (.error f) := by
  intro w hw
  cases hw

end ResultWithin

/-- The value of a name belongs to a well-formed store. -/
theorem Store.WellFormed.within_of_get? {s : Store} (hs : s.WellFormed) {j : FrameId} {x : String}
    {v : Value} (h : s.get? j x = some v) : v.Within s.frames.size := by
  unfold Store.get? Store.bindings at h
  cases hf : s.frame? j with
  | none =>
    rw [hf] at h
    cases h
  | some f =>
    rw [hf] at h
    exact hs.within hf (Bindings.mem_of_get? h)

/-- The frame of a call keeps a store well-formed. -/
theorem Keeps.callFrame {s : Store} (hs : s.WellFormed) (names : List String) {args : List Value}
    {captured : FrameId} (hargs : AllWithin s.frames.size args) (hc : captured < s.frames.size) :
    Keeps s (s.addFrame (Bindings.ofPairs (names.zip args)) (some captured)).2 := by
  refine ⟨hs.addFrame ?_ ?_, by rw [Store.size_frames_addFrame]; exact Nat.le_succ _⟩
  · intro p hp
    exact allWithin_iff.1 hargs p.2 (List.of_mem_zip (Bindings.mem_ofPairs hp)).2
  · intro o ho
    cases ho
    exact hc

mutual

/-- Evaluating a form of a well-formed store keeps the store well-formed. -/
theorem Evaluates.keeps {s s' : Store} {i : FrameId} {form : Value} {r : Except Fault Value} :
    Evaluates s i form r s' → s.WellFormed → i < s.frames.size → form.Within s.frames.size →
    Keeps s s' ∧ ResultWithin s' r
  | .symbol _ hget, hs, _, _ => ⟨.refl hs, .ok (hs.within_of_get? hget)⟩
  | .unbound _, hs, _, _ => ⟨.refl hs, .error⟩
  | .atom _, hs, _, hform => ⟨.refl hs, .ok hform⟩
  | .nothing _, hs, _, _ => ⟨.refl hs, .error⟩
  | .special _ hk, hs, hi, hform => hk.keeps hs hi hform.2
  | .application _ hall happ, hs, hi, hform => by
    -- The items give the procedure and its arguments, all of them values of the store they leave.
    obtain ⟨k₁, hvs⟩ := hall.keeps hs hi hform
    obtain ⟨hproc, hargs⟩ := hvs _ rfl
    obtain ⟨k₂, hr⟩ := happ.keeps k₁.wellFormed hproc hargs
    exact ⟨k₁.trans k₂, hr⟩
  | .itemFails _ hall, hs, hi, hform => ⟨(hall.keeps hs hi hform).1, .error⟩

/-- So does evaluating several forms for their values. -/
theorem EvaluatesAll.keeps {s s' : Store} {i : FrameId} {forms : List Value}
    {r : Except Fault (List Value)} :
    EvaluatesAll s i forms r s' → s.WellFormed → i < s.frames.size →
    AllWithin s.frames.size forms → Keeps s s' ∧ ResultsWithin s' r
  | .nil, hs, _, _ => by
    refine ⟨.refl hs, fun vs hvs => ?_⟩
    cases hvs
    trivial
  | .cons hform hforms, hs, hi, ⟨hw, hws⟩ => by
    obtain ⟨k₁, hv⟩ := hform.keeps hs hi hw
    obtain ⟨k₂, hvs⟩ := hforms.keeps k₁.wellFormed (k₁.lt_size hi) (k₁.allWithin hws)
    refine ⟨k₁.trans k₂, fun vs hr => ?_⟩
    cases hr
    exact ⟨k₂.within (hv _ rfl), hvs _ rfl⟩
  | .headFails hform, hs, hi, ⟨hw, _⟩ => ⟨(hform.keeps hs hi hw).1, fun _ hr => by cases hr⟩
  | .tailFails hform hforms, hs, hi, ⟨hw, hws⟩ => by
    obtain ⟨k₁, -⟩ := hform.keeps hs hi hw
    obtain ⟨k₂, -⟩ := hforms.keeps k₁.wellFormed (k₁.lt_size hi) (k₁.allWithin hws)
    exact ⟨k₁.trans k₂, fun _ hr => by cases hr⟩

/-- So does evaluating several forms for the last value. -/
theorem EvaluatesLast.keeps {s s' : Store} {i : FrameId} {last : Value} {forms : List Value}
    {r : Except Fault Value} :
    EvaluatesLast s i last forms r s' → s.WellFormed → i < s.frames.size →
    last.Within s.frames.size → AllWithin s.frames.size forms → Keeps s s' ∧ ResultWithin s' r
  | .nil, hs, _, hlast, _ => ⟨.refl hs, .ok hlast⟩
  | .cons hform hforms, hs, hi, _, ⟨hw, hws⟩ => by
    obtain ⟨k₁, hv⟩ := hform.keeps hs hi hw
    obtain ⟨k₂, hr⟩ :=
      hforms.keeps k₁.wellFormed (k₁.lt_size hi) (hv _ rfl) (k₁.allWithin hws)
    exact ⟨k₁.trans k₂, hr⟩
  | .fails hform, hs, hi, _, ⟨hw, _⟩ => ⟨(hform.keeps hs hi hw).1, .error⟩

/-- So does the rule of every keyword. -/
theorem Follows.keeps {k : Keyword} {s s' : Store} {i : FrameId} {ops : List Value}
    {r : Except Fault Value} :
    Follows k s i ops r s' → s.WellFormed → i < s.frames.size → AllWithin s.frames.size ops →
    Keeps s s' ∧ ResultWithin s' r
  | .misused .., hs, _, _ => ⟨.refl hs, .error⟩
  | .quote, hs, _, ⟨hv, _⟩ => ⟨.refl hs, .ok hv⟩
  | .testFails _ htest, hs, hi, ⟨hw, _⟩ => ⟨(htest.keeps hs hi hw).1, .error⟩
  | .testHolds _ htest _ _ hyes, hs, hi, ⟨hw, hy, _⟩ => by
    obtain ⟨k₁, -⟩ := htest.keeps hs hi hw
    obtain ⟨k₂, hr⟩ := hyes.keeps k₁.wellFormed (k₁.lt_size hi) (k₁.within hy)
    exact ⟨k₁.trans k₂, hr⟩
  | .otherwise htest _ hno, hs, hi, ⟨hw, _, hn, _⟩ => by
    obtain ⟨k₁, -⟩ := htest.keeps hs hi hw
    obtain ⟨k₂, hr⟩ := hno.keeps k₁.wellFormed (k₁.lt_size hi) (k₁.within hn)
    exact ⟨k₁.trans k₂, hr⟩
  | .missing htest _, hs, hi, ⟨hw, _⟩ => ⟨(htest.keeps hs hi hw).1, .ok trivial⟩
  | .badTarget .., hs, _, _ => ⟨.refl hs, .error⟩
  | .formFails _ hform, hs, hi, ⟨_, hw, _⟩ => ⟨(hform.keeps hs hi hw).1, .error⟩
  | .assign hform _, hs, hi, ⟨_, hw, _⟩ => by
    obtain ⟨k₁, hv⟩ := hform.keeps hs hi hw
    exact ⟨k₁.bind (hv _ rfl), .ok trivial⟩
  | .assignUnbound hform _, hs, hi, ⟨_, hw, _⟩ => ⟨(hform.keeps hs hi hw).1, .error⟩
  | .define hform, hs, hi, ⟨_, hw, _⟩ => by
    obtain ⟨k₁, hv⟩ := hform.keeps hs hi hw
    exact ⟨k₁.bind (hv _ rfl), .ok trivial⟩
  | .lambda, hs, hi, ⟨hparams, hbody, _⟩ =>
    -- The closure captures the current frame, which is there.
    ⟨.addObject hs, .ok ⟨hi, hparams, hbody⟩⟩
  | .lambdaBegin, hs, hi, ⟨hparams, hbody⟩ => ⟨.addObject hs, .ok ⟨hi, hparams, trivial, hbody⟩⟩
  | .badParameters .., hs, _, _ => ⟨.refl hs, .error⟩
  | .begin hforms, hs, hi, hops => hforms.keeps hs hi trivial hops

/-- So does applying a value of the store to values of the store. -/
theorem Applies.keeps {s s' : Store} {v : Value} {args : List Value} {r : Except Fault Value} :
    Applies s v args r s' → s.WellFormed → v.Within s.frames.size →
    AllWithin s.frames.size args → Keeps s s' ∧ ResultWithin s' r
  | .primitive hcall, hs, _, hargs => by
    -- Any limit at which the call is settled shows what it gives.
    obtain ⟨enough, hsettled⟩ := hcall
    refine ⟨.addObject hs, fun w hw => ?_⟩
    have hval := hsettled enough (Nat.le_refl _)
    rw [hw] at hval
    exact Primitive.call_within hval hargs
  | @Applies.closure _ _ _ names _ _ _ _ _ hbody, hs, ⟨hc, _, hb⟩, hargs => by
    have k₁ := Keeps.callFrame hs names hargs hc
    obtain ⟨k₂, hr⟩ := hbody.keeps k₁.wellFormed (by simp) (k₁.within hb)
    exact ⟨k₁.trans k₂, hr⟩
  | .miscounted _, hs, _, _ => ⟨.refl hs, .error⟩
  | .listFormal .., hs, _, _ => ⟨.refl hs, .error⟩
  | .badFormal .., hs, _, _ => ⟨.refl hs, .error⟩
  | .notCallable .., hs, _, _ => ⟨.refl hs, .error⟩

end

end Lisplet
