import Lisplet.Proofs.Simulation
import Mathlib.Logic.Equiv.Basic

/-!
# Renaming

A program does not depend on how its symbols are spelled. Let a map of names be one to one and leave
the keywords alone, and apply it to every symbol of a form and of a store: in quoted data and values, in
the parameters and bodies of closures, and in the names that frames bind. Primitives keep their
own names; it is the names they are bound to that change. Evaluating the renamed form in the renamed
store then gives the renamed result and leaves the renamed store.

Renaming pairs every frame and every object with itself and every name with its image, so the two runs
are an instance of the simulation of runs in two stores.

Main definitions: `Value.rename`, `Store.rename`, `Fault.Renamed`, `Pairing.renaming`. Main statement:
`evaluate_renamed`.
-/

namespace Lisplet

/-! ## Renamed values and stores -/

mutual

/-- The value with every symbol renamed. -/
def Value.rename (r : String → String) : Value → Value
  | .symbol x => .symbol (r x)
  | .list id vs => .list id (renameAll r vs)
  | .closure id formals body i => .closure id (renameAll r formals) (body.rename r) i
  | .noValue => .noValue
  | .bool b => .bool b
  | .int n => .int n
  | .primitive p home => .primitive p home
  | .text s => .text s

/-- The values with every symbol renamed. -/
def renameAll (r : String → String) : List Value → List Value
  | [] => []
  | v :: vs => v.rename r :: renameAll r vs

end

/-- The bindings, in their order, with every name and every symbol renamed. -/
def Bindings.rename (r : String → String) (b : Bindings) : Bindings :=
  b.map fun p => (r p.1, p.2.rename r)

/-- The frame with every name and every symbol renamed. -/
def Frame.rename (r : String → String) (f : Frame) : Frame :=
  ⟨f.bindings.rename r, f.outer⟩

/-- The store with every name and every symbol renamed. -/
def Store.rename (r : String → String) (s : Store) : Store :=
  ⟨s.frames.map (Frame.rename r), s.objects⟩

@[simp] theorem Store.frame?_rename (r : String → String) (s : Store) (i : FrameId) :
    (s.rename r).frame? i = (s.frame? i).map (Frame.rename r) := by
  simp [Store.frame?, Store.rename]

/-- The second fault is the first one with its symbols renamed: an unbound name and a value that cannot
be called are the renamed ones, and numbers of operands are the same. Texts that were made from values
for a message may differ. -/
inductive Fault.Renamed (r : String → String) : Fault → Fault → Prop where
  | unbound (x : String) : Fault.Renamed r (.unbound x) (.unbound (r x))
  | notCallable (v : Value) (shown shown' : String) :
      Fault.Renamed r (.notCallable v shown) (.notCallable (v.rename r) shown')
  | cannotBind (shown shown' : String) : Fault.Renamed r (.cannotBind shown) (.cannotBind shown')
  | badTarget (k : Keyword) (shown shown' : String) :
      Fault.Renamed r (.badTarget k shown) (.badTarget k shown')
  | badParameters (shown shown' : String) :
      Fault.Renamed r (.badParameters shown) (.badParameters shown')
  | notInteger (p : Primitive) (shown shown' : String) :
      Fault.Renamed r (.notInteger p shown) (.notInteger p shown')
  | notList (p : Primitive) (shown shown' : String) :
      Fault.Renamed r (.notList p shown) (.notList p shown')
  | same {f : Fault} : (∀ x, f ≠ .unbound x) → (∀ v shown, f ≠ .notCallable v shown) →
      Fault.Renamed r f f

theorem Fault.Renamed.kind_eq {r : String → String} {f f' : Fault} (h : f.Renamed r f') :
    f'.kind = f.kind := by
  cases h <;> rfl

/-- The second result is the first one with its symbols renamed. -/
inductive ResultRenamed (r : String → String) : Except Fault Value → Except Fault Value → Prop where
  | value (v : Value) : ResultRenamed r (.ok v) (.ok (v.rename r))
  | fault {f f' : Fault} : f.Renamed r f' → f'.kind = f.kind → ResultRenamed r (.error f) (.error f')

/-! ## Renaming as a pairing -/

/-- The pairing pairs frames and objects with themselves, and names with their images. -/
structure Pairing.Renames (κ : Pairing) (r : String → String) : Prop where
  frame_iff : ∀ a b, κ.frame a b ↔ a = b
  object_iff : ∀ a b, κ.object a b ↔ a = b
  name_iff : ∀ x y, κ.name x y ↔ y = r x

/-- Every frame and every object stands for itself, and every name for its image. -/
def Pairing.renaming (r : String → String) (hinj : Function.Injective r)
    (hkeywords : ∀ k : Keyword, r k.name = k.name) : Pairing where
  frame := Eq
  object := Eq
  name x y := y = r x
  dangling := True
  frame_lt_iff h h' := by rw [h, h']
  object_lt_iff h h' := by rw [h, h']
  name_eq_iff h h' := by rw [h, h', hinj.eq_iff]
  keyword_name k := (hkeywords k).symm

section Paired

variable {κ : Pairing} {r : String → String}

theorem Pairing.renaming_within (hinj : Function.Injective r)
    (hkeywords : ∀ k : Keyword, r k.name = k.name) (s : Store) :
    ((Pairing.renaming r hinj hkeywords).within s).Renames r where
  frame_iff a b := by simp [Pairing.within, Pairing.upto, Pairing.renaming]
  object_iff a b := by simp [Pairing.within, Pairing.upto, Pairing.renaming]
  name_iff _ _ := Iff.rfl

theorem Pairing.Renames.optional_iff (hκ : κ.Renames r) {a b : Option ObjectId} :
    Option.Rel κ.object a b ↔ b = a := by
  constructor
  · intro h
    cases h with
    | none => rfl
    | some hab => rw [(hκ.object_iff _ _).1 hab]
  · intro h
    subst h
    cases b with
    | none => exact .none
    | some id => exact .some ((hκ.object_iff _ _).2 rfl)

mutual

theorem Value.Paired.eq_rename (hκ : κ.Renames r) {v w : Value} : v.Paired κ w → w = v.rename r
  | .noValue | .bool | .int | .primitive | .text => rfl
  | .symbol hx => by
    rw [(hκ.name_iff _ _).1 hx]
    rfl
  | .list hid hvs => by
    rw [hκ.optional_iff.1 hid, hvs.eq_renameAll hκ]
    rfl
  | .closure hid hvs hv ha => by
    rw [← (hκ.object_iff _ _).1 hid, ← (hκ.frame_iff _ _).1 ha, hvs.eq_renameAll hκ, hv.eq_rename hκ]
    rfl

theorem AllPaired.eq_renameAll (hκ : κ.Renames r) {vs ws : List Value} :
    AllPaired κ vs ws → ws = renameAll r vs
  | .nil => rfl
  | .cons hv hvs => by
    rw [hv.eq_rename hκ, hvs.eq_renameAll hκ]
    rfl

end

mutual

theorem Value.paired_rename (hκ : κ.Renames r) : ∀ v : Value, v.Paired κ (v.rename r)
  | .noValue => .noValue
  | .bool _ => .bool
  | .int _ => .int
  | .symbol _ => .symbol ((hκ.name_iff _ _).2 rfl)
  | .list _ vs => .list (hκ.optional_iff.2 rfl) (allPaired_renameAll hκ vs)
  | .primitive _ _ => .primitive
  | .closure _ formals body _ =>
    .closure ((hκ.object_iff _ _).2 rfl) (allPaired_renameAll hκ formals) (body.paired_rename hκ)
      ((hκ.frame_iff _ _).2 rfl)
  | .text _ => .text

theorem allPaired_renameAll (hκ : κ.Renames r) : ∀ vs : List Value, AllPaired κ vs (renameAll r vs)
  | [] => .nil
  | v :: vs => .cons (v.paired_rename hκ) (allPaired_renameAll hκ vs)

end

/-- Along a renaming, bindings are paired with the renamed bindings and with no others. -/
theorem Bindings.paired_iff_rename (hκ : κ.Renames r) {b b' : Bindings} :
    b.Paired κ b' ↔ b' = b.rename r := by
  constructor
  · intro h
    induction h with
    | nil => rfl
    | @cons p q b b' hp _ ih =>
      have hpair : q = (r p.1, p.2.rename r) :=
        Prod.ext ((hκ.name_iff _ _).1 hp.1) (hp.2.eq_rename hκ)
      rw [ih, hpair]
      rfl
  · intro h
    subst h
    induction b with
    | nil => exact .nil
    | cons p b ih => exact .cons ⟨(hκ.name_iff _ _).2 rfl, p.2.paired_rename hκ⟩ ih

theorem Frame.paired_iff_rename (hκ : κ.Renames r) {f f' : Frame} :
    f.Paired κ f' ↔ f' = f.rename r := by
  have houter : Option.Rel κ.frame f.outer f'.outer ↔ f'.outer = f.outer := by
    cases f.outer <;> cases f'.outer <;> simp [hκ.frame_iff, eq_comm]
  constructor
  · intro h
    have hbindings := (Bindings.paired_iff_rename hκ).1 h.bindings
    cases f'
    simp_all [Frame.rename, h.outer]
  · intro h
    subst h
    exact ⟨(Bindings.paired_iff_rename hκ).2 rfl, houter.2 rfl⟩

theorem Fault.Paired.renamed (hκ : κ.Renames r) {f f' : Fault} (h : f.Paired κ f') :
    f.Renamed r f' := by
  unfold Fault.Paired at h
  split at h
  · exact .cannotBind _ _
  · obtain ⟨rfl, -⟩ := h
    exact .badTarget _ _ _
  · exact .badParameters _ _
  · rw [(hκ.name_iff _ _).1 h]
    exact .unbound _
  · rw [h.1.eq_rename hκ]
    exact .notCallable _ _ _
  · obtain ⟨rfl, -⟩ := h
    exact .notInteger _ _ _
  · obtain ⟨rfl, -⟩ := h
    exact .notList _ _ _
  · -- A fault that holds no symbol is the same in both runs.
    rename_i hunbound hcallable _ _
    subst h
    apply Fault.Renamed.same
    · intro x hx
      exact hunbound x x hx hx
    · intro v shown hv
      exact hcallable v shown v shown hv hv

theorem ResultRenamed.of_paired (hκ : κ.Renames r) {result result' : Except Fault Value}
    (h : Outcome.Paired κ (Value.Paired κ) (Outcome.ofExcept result) (Outcome.ofExcept result')) :
    ResultRenamed r result result' := by
  cases result with
  | ok v =>
    cases result' with
    | ok w =>
      cases h with
      | value hvw =>
        rw [hvw.eq_rename hκ]
        exact .value v
    | error f => cases h
  | error f =>
    cases result' with
    | ok w => cases h
    | error f' =>
      cases h with
      | fault hf =>
        have hrenamed := hf.renamed hκ
        exact .fault hrenamed hrenamed.kind_eq

end Paired

/-! ## Renamed runs -/

section Runs

variable {r : String → String} (hinj : Function.Injective r)
  (hkeywords : ∀ k : Keyword, r k.name = k.name) {m n : Machine}

/-- A machine matches one that has the renamed store, and no other. -/
theorem matched_renaming_iff (hlog : m.log.threshold = n.log.threshold) :
    Matched (Pairing.renaming r hinj hkeywords) m n ↔ n.store = m.store.rename r := by
  have hκ := Pairing.renaming_within hinj hkeywords m.store
  constructor
  · intro h
    have hobjects : m.store.objects = n.store.objects := h.next_object 0
    have hframes : ∀ a : Nat, n.store.frames[a]? = (m.store.rename r).frames[a]? := by
      intro a
      show n.store.frame? a = (m.store.rename r).frame? a
      have hframe := h.frames (a := a) rfl
      rw [Store.frame?_rename]
      revert hframe
      cases m.store.frame? a <;> cases n.store.frame? a <;> simp [Frame.paired_iff_rename hκ]
    cases hstore : n.store with
    | mk frames objects =>
      simp only [hstore] at hobjects hframes
      simp only [Store.rename, hobjects, Store.mk.injEq, and_true]
      exact Array.ext_getElem? hframes
  · intro h
    refine ⟨?_, ?_, ?_, ?_, hlog⟩
    · intro k
      show m.store.frames.size + k = n.store.frames.size + k
      simp [h, Store.rename]
    · intro k
      show m.store.objects + k = n.store.objects + k
      simp [h, Store.rename]
    · intro a b hab
      have hab' : a = b := hab
      subst hab'
      rw [h, Store.frame?_rename]
      cases m.store.frame? a with
      | none => exact .none
      | some f => exact .some ((Frame.paired_iff_rename hκ).2 rfl)
    · intro a b f o _ _ _
      exact Or.inl trivial

end Runs

/-- Evaluation commutes with renaming. For every map of names that is one to one and leaves the keywords
alone: evaluating a renamed form in a renamed store, frame by frame the same, gives the renamed value
and leaves the renamed store. If the one run fails, the other fails with a fault of the same class,
with the same numbers of operands, with the renamed unbound name or with the renamed value that cannot
be called. The logs may hold anything, as long as they keep messages of the same levels. -/
theorem evaluate_renamed {r : String → String} (hinj : Function.Injective r)
    (hkeywords : ∀ k : Keyword, r k.name = k.name) (limit : Nat) (form : Value) (i : FrameId)
    {m n : Machine} (hstore : n.store = m.store.rename r)
    (hlog : m.log.threshold = n.log.threshold) :
    ∃ result result' m' n',
      evaluate limit form i m = (Outcome.ofExcept result, m') ∧
      evaluate limit (form.rename r) i n = (Outcome.ofExcept result', n') ∧
      ResultRenamed r result result' ∧
      n'.store = m'.store.rename r := by
  let κ := Pairing.renaming r hinj hkeywords
  have hκ := Pairing.renaming_within hinj hkeywords m.store
  have hmatched : Matched κ m n := (matched_renaming_iff hinj hkeywords hlog).2 hstore
  have hsimulated := evaluate_simulates κ limit hmatched (form.paired_rename hκ)
    ((hκ.frame_iff i i).2 rfl)
  obtain ⟨result, m', hrun⟩ := Run.Concludes.guard .evaluating (eval limit form i) m
  obtain ⟨result', n', hrun'⟩ := Run.Concludes.guard .evaluating (eval limit (form.rename r) i) n
  change evaluate limit form i m = _ at hrun
  change evaluate limit (form.rename r) i n = _ at hrun'
  rw [hrun, hrun'] at hsimulated
  have hlog' : m'.log.threshold = n'.log.threshold := hsimulated.matched.threshold_eq
  refine ⟨result, result', m', n', hrun, hrun', ?_, ?_⟩
  · exact ResultRenamed.of_paired (Pairing.renaming_within hinj hkeywords m'.store) hsimulated.outcome
  · exact (matched_renaming_iff hinj hkeywords hlog').1 hsimulated.matched

/-- With `x` and `car` swapped, the primitive that takes the first item of a list is called by the name
`x`, and where `x` was unbound `car` is. -/
theorem evaluate_renamed_swap :
    let r := Equiv.swap "x" "car"
    let n : Machine := ⟨Store.empty.addStandard.2.rename r, Log.new .error⟩
    let first : Value := .literal [.symbol "car", .literal [.symbol "quote", .literal [.symbol "x"]]]
    first.rename r = .literal [.symbol "x", .literal [.symbol "quote", .literal [.symbol "car"]]] ∧
    (evaluate 9 (first.rename r) 0 n).1 = .value (.symbol "car") ∧
    (evaluate 9 ((Value.symbol "x").rename r) 0 n).1 = .fault (.unbound "car") := by
  intro r n first
  let m : Machine := ⟨Store.empty.addStandard.2, Log.new .error⟩
  have hkeywords : ∀ k : Keyword, r k.name = k.name := by
    intro k
    cases k <;> rfl
  refine ⟨rfl, ?_, ?_⟩
  · obtain ⟨result, result', m', n', hrun, hrun', hrenamed, -⟩ :=
      evaluate_renamed r.injective hkeywords 9 first 0 (m := m) (n := n) rfl rfl
    have hvalue : (evaluate 9 first 0 m).1 = .value (.symbol "x") := by with_unfolding_all rfl
    rw [hrun] at hvalue
    rw [hrun']
    cases hrenamed with
    | value v =>
      cases hvalue
      rfl
    | fault _ _ => cases hvalue
  · obtain ⟨result, result', m', n', hrun, hrun', hrenamed, -⟩ :=
      evaluate_renamed r.injective hkeywords 9 (.symbol "x") 0 (m := m) (n := n) rfl rfl
    have hfault : (evaluate 9 (.symbol "x") 0 m).1 = .fault (.unbound "x") := by
      with_unfolding_all rfl
    rw [hrun] at hfault
    rw [hrun']
    cases hrenamed with
    | value v => cases hfault
    | fault hf _ =>
      cases hfault
      cases hf with
      | unbound => rfl
      | same hne _ => exact absurd rfl (hne "x")

end Lisplet
