import Lisplet.Proofs.Operands
import Lisplet.Value.Print
import Mathlib.Data.List.Forall2

/-!
# Values that differ in identities only

Two runs of one program in different stores give frames, lists and closures different identities. A
pairing says which frame, which object and which name of the first run stands for which of the second,
one to one and in the same order. Values that are paired differ in nothing else, and
whatever the library computes from values alone comes to the same for them: their texts, equality and
order, and the calls of primitives.

Main definitions: `Pairing`, `Value.Paired`, `Fault.Paired`, `Outcome.Paired`. Main statements:
`Value.Paired.eq_iff`, `Value.Paired.describe`, `Value.Paired.same`, `Primitive.call_paired`.
-/

namespace Lisplet

/-! ## Pairings -/

/-- Which frames, objects and names of one run stand for which of another. -/
structure Pairing where
  frame : FrameId → FrameId → Prop
  object : ObjectId → ObjectId → Prop
  name : String → String → Prop
  /-- Whether values may also refer to frames and objects that are not there. -/
  dangling : Prop
  frame_lt_iff : ∀ {a b c d}, frame a b → frame c d → (a < c ↔ b < d)
  object_lt_iff : ∀ {a b c d}, object a b → object c d → (a < c ↔ b < d)
  name_eq_iff : ∀ {x y z w}, name x y → name z w → (x = z ↔ y = w)
  keyword_name : ∀ k : Keyword, name k.name k.name

namespace Pairing

variable {κ κ' : Pairing}

theorem frame_eq_iff (κ : Pairing) {a b c d : FrameId} (h : κ.frame a b) (h' : κ.frame c d) :
    a = c ↔ b = d := by
  simp only [Nat.le_antisymm_iff, ← Nat.not_lt, κ.frame_lt_iff h h', κ.frame_lt_iff h' h]

theorem object_eq_iff (κ : Pairing) {a b c d : ObjectId} (h : κ.object a b) (h' : κ.object c d) :
    a = c ↔ b = d := by
  simp only [Nat.le_antisymm_iff, ← Nat.not_lt, κ.object_lt_iff h h', κ.object_lt_iff h' h]

/-- Every keyword stands for itself, so a name that stands for another one is no keyword. -/
theorem keyword_eq (κ : Pairing) {x y : String} (h : κ.name x y) :
    Keyword.ofName? x = Keyword.ofName? y := by
  apply Option.ext
  intro k
  have hx : (Value.symbol x).keyword? = some k ↔ (Value.symbol y).keyword? = some k := by
    rw [Value.keyword?_eq_some_iff, Value.keyword?_eq_some_iff, Value.symbol.injEq,
      Value.symbol.injEq]
    exact κ.name_eq_iff h (κ.keyword_name k)
  exact hx

/-- Two things that the names decide: they are the same if no name stands for another one. -/
def Alike {α : Type} (κ : Pairing) (a b : α) : Prop :=
  (∀ x y, κ.name x y → x = y) → a = b

theorem Alike.rfl {α : Type} {a : α} : κ.Alike a a :=
  fun _ => Eq.refl a

theorem Alike.map {α β : Type} {a b : α} (h : κ.Alike a b) (f : α → β) : κ.Alike (f a) (f b) :=
  fun hname => congrArg f (h hname)

/-- The second pairing pairs all that the first one pairs. -/
structure Le (κ κ' : Pairing) : Prop where
  frame : ∀ {a b}, κ.frame a b → κ'.frame a b
  object : ∀ {a b}, κ.object a b → κ'.object a b
  name : ∀ {x y}, κ.name x y ↔ κ'.name x y

/-- The part of a pairing that is about the first frames and objects, unless references may dangle. -/
def upto (κ : Pairing) (frames objects : Nat) : Pairing where
  frame a b := κ.frame a b ∧ (κ.dangling ∨ a < frames)
  object a b := κ.object a b ∧ (κ.dangling ∨ a < objects)
  name := κ.name
  dangling := κ.dangling
  frame_lt_iff h h' := κ.frame_lt_iff h.1 h'.1
  object_lt_iff h h' := κ.object_lt_iff h.1 h'.1
  name_eq_iff := κ.name_eq_iff
  keyword_name := κ.keyword_name

theorem upto_le {frames objects frames' objects' : Nat} (hf : frames ≤ frames')
    (ho : objects ≤ objects') : (κ.upto frames objects).Le (κ.upto frames' objects') where
  frame h := ⟨h.1, h.2.imp_right fun hlt => Nat.lt_of_lt_of_le hlt hf⟩
  object h := ⟨h.1, h.2.imp_right fun hlt => Nat.lt_of_lt_of_le hlt ho⟩
  name := Iff.rfl

/-- Each of the given frames and objects stands for itself, and so does every name. -/
def diagonal (frames : FrameId → Prop) (objects : ObjectId → Prop) : Pairing where
  frame a b := a = b ∧ frames a
  object a b := a = b ∧ objects a
  name x y := x = y
  dangling := False
  frame_lt_iff h h' := by rw [h.1, h'.1]
  object_lt_iff h h' := by rw [h.1, h'.1]
  name_eq_iff h h' := by rw [h, h']
  keyword_name _ := rfl

end Pairing

/-! ## Values -/

section Optional

variable {α β : Type} {R S : α → β → Prop} {a : Option α} {b : Option β}

theorem rel_imp (hRS : ∀ a b, R a b → S a b) (h : Option.Rel R a b) : Option.Rel S a b := by
  cases h with
  | none => exact .none
  | some h => exact .some (hRS _ _ h)

theorem isSome_eq_of_rel (h : Option.Rel R a b) : a.isSome = b.isSome := by
  cases h <;> rfl

end Optional

mutual

/-- The values differ at most in identities and names, and these are paired. -/
inductive Value.Paired (κ : Pairing) : Value → Value → Prop where
  | noValue : Value.Paired κ .noValue .noValue
  | bool {b : Bool} : Value.Paired κ (.bool b) (.bool b)
  | int {n : Int} : Value.Paired κ (.int n) (.int n)
  | symbol {x y : String} : κ.name x y → Value.Paired κ (.symbol x) (.symbol y)
  | list {id id' : Option ObjectId} {vs ws : List Value} :
      Option.Rel κ.object id id' → AllPaired κ vs ws → Value.Paired κ (.list id vs) (.list id' ws)
  | primitive {p : Primitive} {home : FrameId} :
      Value.Paired κ (.primitive p home) (.primitive p home)
  | closure {id id' : ObjectId} {vs ws : List Value} {v w : Value} {a b : FrameId} :
      κ.object id id' → AllPaired κ vs ws → Value.Paired κ v w → κ.frame a b →
      Value.Paired κ (.closure id vs v a) (.closure id' ws w b)
  | text {s : String} : Value.Paired κ (.text s) (.text s)

/-- The values of two lists are paired, place by place. -/
inductive AllPaired (κ : Pairing) : List Value → List Value → Prop where
  | nil : AllPaired κ [] []
  | cons {v w : Value} {vs ws : List Value} :
      Value.Paired κ v w → AllPaired κ vs ws → AllPaired κ (v :: vs) (w :: ws)

end

variable {κ κ' : Pairing}

theorem allPaired_iff {vs ws : List Value} :
    AllPaired κ vs ws ↔ List.Forall₂ (Value.Paired κ) vs ws := by
  constructor
  · intro h
    induction vs generalizing ws with
    | nil =>
      cases h
      exact .nil
    | cons v vs ih =>
      cases h with
      | cons hv hvs => exact .cons hv (ih hvs)
  · intro h
    induction h with
    | nil => exact .nil
    | cons hv _ ih => exact .cons hv ih

namespace AllPaired

variable {vs ws vs' ws' : List Value}

theorem length_eq (h : AllPaired κ vs ws) : vs.length = ws.length :=
  (allPaired_iff.1 h).length_eq

theorem isEmpty_eq (h : AllPaired κ vs ws) : vs.isEmpty = ws.isEmpty := by
  cases h <;> rfl

theorem append (h : AllPaired κ vs ws) (h' : AllPaired κ vs' ws') :
    AllPaired κ (vs ++ vs') (ws ++ ws') :=
  allPaired_iff.2 (List.rel_append (allPaired_iff.1 h) (allPaired_iff.1 h'))

end AllPaired

mutual

theorem Value.Paired.mono (hκ : κ.Le κ') {v w : Value} : v.Paired κ w → v.Paired κ' w
  | .noValue => .noValue
  | .bool => .bool
  | .int => .int
  | .symbol hx => .symbol (hκ.name.1 hx)
  | .list hid hvs => .list (rel_imp (fun _ _ => hκ.object) hid) (hvs.mono hκ)
  | .primitive => .primitive
  | .closure hid hvs hv ha => .closure (hκ.object hid) (hvs.mono hκ) (hv.mono hκ) (hκ.frame ha)
  | .text => .text

theorem AllPaired.mono (hκ : κ.Le κ') {vs ws : List Value} : AllPaired κ vs ws → AllPaired κ' vs ws
  | .nil => .nil
  | .cons hv hvs => .cons (hv.mono hκ) (hvs.mono hκ)

end

namespace Value.Paired

variable {v w : Value}

theorem of_eq {b c : Bool} (h : b = c) : (Value.bool b).Paired κ (.bool c) :=
  h ▸ .bool

theorem isTrue_eq (h : v.Paired κ w) : v.isTrue = w.isTrue := by
  cases h <;> rfl

theorem isList_eq (h : v.Paired κ w) : v.isList = w.isList := by
  cases h <;> rfl

theorem keyword?_eq (h : v.Paired κ w) : v.keyword? = w.keyword? := by
  cases h with
  | symbol hx => exact κ.keyword_eq hx
  | _ => rfl

theorem name?_isSome_eq (h : v.Paired κ w) : v.name?.isSome = w.name?.isSome := by
  cases h <;> rfl

theorem name?_eq_none (h : v.Paired κ w) (hv : v.name? = none) : w.name? = none := by
  cases h with
  | symbol _ => cases hv
  | _ => rfl

theorem asList (h : v.Paired κ w) : AllPaired κ v.asList w.asList := by
  have hone : AllPaired κ [v] [w] := .cons h .nil
  cases h with
  | list _ hvs => exact hvs
  | _ => exact hone

end Value.Paired

/-- Identities that lists may lack are one to one as well. -/
theorem Pairing.optional_eq_iff (κ : Pairing) {a b c d : Option ObjectId}
    (h : Option.Rel κ.object a b) (h' : Option.Rel κ.object c d) : a = c ↔ b = d := by
  cases h with
  | none => cases h' <;> simp
  | some h =>
    cases h' with
    | none => simp
    | some h' => simp [κ.object_eq_iff h h']

mutual

/-- Paired values are equal to each other in one run exactly if they are in the other. -/
theorem Value.Paired.eq_iff {v w v' w' : Value} :
    v.Paired κ w → v'.Paired κ w' → (v = v' ↔ w = w')
  | .noValue, h' | .bool, h' | .int, h' | .primitive, h' | .text, h' => by cases h' <;> simp
  | .symbol hx, h' => by
    cases h' with
    | symbol hx' => simp [κ.name_eq_iff hx hx']
    | _ => simp
  | .list hid hvs, h' => by
    cases h' with
    | list hid' hvs' => simp [κ.optional_eq_iff hid hid', hvs.eq_iff hvs']
    | _ => simp
  | .closure hid hvs hv ha, h' => by
    cases h' with
    | closure hid' hvs' hv' ha' =>
      simp [κ.object_eq_iff hid hid', hvs.eq_iff hvs', hv.eq_iff hv', κ.frame_eq_iff ha ha']
    | _ => simp

/-- The same for lists of values. -/
theorem AllPaired.eq_iff {vs ws vs' ws' : List Value} :
    AllPaired κ vs ws → AllPaired κ vs' ws' → (vs = vs' ↔ ws = ws')
  | .nil, .nil | .nil, .cons _ _ | .cons _ _, .nil => by simp
  | .cons hv hvs, .cons hv' hvs' => by simp [hv.eq_iff hv', hvs.eq_iff hvs']

end

/-! ## Outcomes -/

/-- The faults have the same cause: they differ in names, values and texts that are paired. -/
def Fault.Paired (κ : Pairing) : Fault → Fault → Prop
  | .cannotBind shown, .cannotBind shown' => κ.Alike shown shown'
  | .badTarget k shown, .badTarget k' shown' => k = k' ∧ κ.Alike shown shown'
  | .badParameters shown, .badParameters shown' => κ.Alike shown shown'
  | .unbound x, .unbound y => κ.name x y
  | .notCallable v shown, .notCallable w shown' => v.Paired κ w ∧ κ.Alike shown shown'
  | .notInteger p shown, .notInteger p' shown' => p = p' ∧ κ.Alike shown shown'
  | .notList p shown, .notList p' shown' => p = p' ∧ κ.Alike shown shown'
  | f, f' => f = f'

/-- Both computations end in the same way, with paired faults or with values that are related. -/
inductive Outcome.Paired (κ : Pairing) {α β : Type} (Q : α → β → Prop) :
    Outcome α → Outcome β → Prop where
  | value {a : α} {b : β} : Q a b → Outcome.Paired κ Q (.value a) (.value b)
  | fault {f f' : Fault} : f.Paired κ f' → Outcome.Paired κ Q (.fault f) (.fault f')
  | exhausted : Outcome.Paired κ Q .exhausted .exhausted

namespace Outcome.Paired

variable {α β γ δ : Type} {Q : α → β → Prop} {R : γ → δ → Prop}

protected theorem bind {o : Outcome α} {o' : Outcome β} {f : α → Outcome γ} {g : β → Outcome δ}
    (h : Outcome.Paired κ Q o o') (hf : ∀ a b, Q a b → Outcome.Paired κ R (f a) (g b)) :
    Outcome.Paired κ R (o >>= f) (o' >>= g) := by
  cases h with
  | value hab => exact hf _ _ hab
  | fault he => exact .fault he
  | exhausted => exact .exhausted

theorem imp {Q' : α → β → Prop} {o : Outcome α} {o' : Outcome β} (h : Outcome.Paired κ Q o o')
    (hQ : ∀ a b, Q a b → Q' a b) : Outcome.Paired κ Q' o o' := by
  cases h with
  | value hab => exact .value (hQ _ _ hab)
  | fault he => exact .fault he
  | exhausted => exact .exhausted

/-- A computation whose faults hold nothing that is paired. -/
theorem of_eq {o : Outcome α} (hfault : ∀ f, o = .fault f → f.Paired κ f) :
    Outcome.Paired κ Eq o o := by
  cases o with
  | value a => exact .value rfl
  | fault f => exact .fault (hfault f rfl)
  | exhausted => exact .exhausted

end Outcome.Paired

/-! ## Texts -/

/-- Writing an integer needs no pairing. -/
theorem writeInt_paired (n : Int) : Outcome.Paired κ Eq (writeInt n) (writeInt n) := by
  apply Outcome.Paired.of_eq
  intro f hf
  unfold writeInt at hf
  split at hf
  · cases hf
  · cases hf
    exact Eq.refl Fault.longInteger

theorem titleAll_cons (limit : Nat) (v : Value) (vs : List Value) :
    titleAll limit (v :: vs) = (do
      let s ← v.title limit
      let ss ← titleAll limit vs
      pure (s :: ss)) := by
  simp only [titleAll, Value.title]
  cases v.ownText? <;> rfl

/-- Titles come to the same if descriptions do. -/
theorem Value.Paired.title {v w : Value} {limit : Nat} (h : v.Paired κ w)
    (hshow : Outcome.Paired κ κ.Alike (v.describe limit) (w.describe limit)) :
    Outcome.Paired κ κ.Alike (v.title limit) (w.title limit) := by
  cases h with
  | symbol hx => exact .value fun hname => hname _ _ hx
  | text => exact .value .rfl
  | _ => exact hshow

mutual

/-- Descriptions of paired values come to the same. -/
theorem Value.Paired.describe {v w : Value} (limit : Nat) :
    v.Paired κ w → Outcome.Paired κ κ.Alike (v.describe limit) (w.describe limit)
  | .noValue | .bool | .primitive | .text => by
    simp only [Value.describe]
    exact .value .rfl
  | .int => by
    simp only [Value.describe]
    exact (writeInt_paired _).bind fun a b hab => .value fun _ => by rw [hab]
  | .symbol hx => by
    simp only [Value.describe]
    exact .value fun hname => by rw [hname _ _ hx]
  | .list _ hvs => by
    cases limit with
    | zero =>
      simp only [Value.describe]
      exact .exhausted
    | succ limit =>
      simp only [Value.describe]
      exact (hvs.describeAll limit).bind fun a b hab => .value (hab.map describeItems)
  | .closure _ hvs _ _ => by
    cases limit with
    | zero =>
      simp only [Value.describe]
      exact .exhausted
    | succ limit =>
      simp only [Value.describe]
      exact (hvs.titleAll limit).bind fun a b hab => .value (hab.map describeClosure)

theorem AllPaired.describeAll {vs ws : List Value} (limit : Nat) :
    AllPaired κ vs ws → Outcome.Paired κ κ.Alike (describeAll limit vs) (describeAll limit ws)
  | .nil => by
    simp only [Lisplet.describeAll]
    exact .value .rfl
  | .cons hv hvs => by
    simp only [Lisplet.describeAll]
    refine (hv.describe limit).bind fun a b hab => ?_
    refine (hvs.describeAll limit).bind fun as bs habs => .value fun hname => ?_
    rw [hab hname, habs hname]

/-- Titles of paired values come to the same. -/
theorem AllPaired.titleAll {vs ws : List Value} (limit : Nat) :
    AllPaired κ vs ws → Outcome.Paired κ κ.Alike (titleAll limit vs) (titleAll limit ws)
  | .nil => by
    simp only [Lisplet.titleAll]
    exact .value .rfl
  | .cons hv hvs => by
    rw [titleAll_cons, titleAll_cons]
    refine (hv.title (hv.describe limit)).bind fun a b hab => ?_
    refine (hvs.titleAll limit).bind fun as bs habs => .value fun hname => ?_
    rw [hab hname, habs hname]

end

mutual

/-- Printed texts of paired values come to the same. -/
theorem Value.Paired.print {v w : Value} (limit : Nat) :
    v.Paired κ w → Outcome.Paired κ κ.Alike (v.print limit) (w.print limit)
  | .noValue | .bool | .primitive | .text => by
    simp only [Value.print]
    exact .value .rfl
  | .int => by
    simp only [Value.print]
    exact (writeInt_paired _).imp fun a b hab _ => hab
  | .symbol hx => by
    simp only [Value.print]
    exact .value fun hname => by rw [hname _ _ hx]
  | .list _ hvs => by
    cases limit with
    | zero =>
      simp only [Value.print]
      exact .exhausted
    | succ limit =>
      simp only [Value.print]
      exact (hvs.printAll limit).bind fun a b hab => .value (hab.map fun s => '(' :: spaced s ++ [')'])
  | .closure _ hvs _ _ => by
    cases limit with
    | zero =>
      simp only [Value.print]
      exact .exhausted
    | succ limit =>
      simp only [Value.print]
      refine (hvs.titleAll limit).bind fun a b hab => .value fun hname => ?_
      rw [hab hname]

theorem AllPaired.printAll {vs ws : List Value} (limit : Nat) :
    AllPaired κ vs ws → Outcome.Paired κ κ.Alike (printAll limit vs) (printAll limit ws)
  | .nil => by
    simp only [Lisplet.printAll]
    exact .value .rfl
  | .cons hv hvs => by
    simp only [Lisplet.printAll]
    refine (hv.print limit).bind fun a b hab => ?_
    refine (hvs.printAll limit).bind fun as bs habs => .value fun hname => ?_
    rw [hab hname, habs hname]

end

/-! ## Equality and order -/

/-- Paired lists are one and the same in one run exactly if they are in the other. -/
theorem oneList_paired {id id' other other' : Option ObjectId} {vs ws vs' ws' : List Value}
    (hid : Option.Rel κ.object id id') (hother : Option.Rel κ.object other other')
    (hvs : AllPaired κ vs ws) (hvs' : AllPaired κ vs' ws') :
    oneList id other vs vs' = oneList id' other' ws ws' := by
  rw [Bool.eq_iff_iff, oneList_iff, oneList_iff, isSome_eq_of_rel hid, κ.optional_eq_iff hid hother,
    hvs.eq_iff hvs']

mutual

/-- Tests of equality come to the same for paired values. -/
theorem Value.Paired.same {v w v' w' : Value} (limit : Nat) :
    v.Paired κ w → v'.Paired κ w' → Outcome.Paired κ Eq (v.same limit v') (w.same limit w')
  | .noValue, h' | .bool, h' | .int, h' | .text, h' | .primitive, h' => by
    cases h' <;> exact .value rfl
  | .symbol hx, h' => by
    cases h' with
    | symbol hx' => exact .value (by simp [Bool.beq_eq_decide_eq, κ.name_eq_iff hx hx'])
    | _ => exact .value rfl
  | .closure hid _ _ _, h' => by
    cases h' with
    | closure hid' _ _ _ => exact .value (by simp [Bool.beq_eq_decide_eq, κ.object_eq_iff hid hid'])
    | _ => exact .value rfl
  | .list hid hvs, h' => by
    cases h' with
    | list hid' hvs' =>
      simp only [Value.same, oneList_paired hid hid' hvs hvs']
      split
      · exact .value rfl
      · cases limit with
        | zero => exact .exhausted
        | succ limit =>
          simp only [hvs.length_eq, hvs'.length_eq]
          split
          · exact hvs.sameItems limit hvs'
          · exact .value rfl
    | _ => exact .value rfl

theorem AllPaired.sameItems {vs ws vs' ws' : List Value} (limit : Nat) :
    AllPaired κ vs ws → AllPaired κ vs' ws' →
    Outcome.Paired κ Eq (sameItems limit vs vs') (sameItems limit ws ws')
  | .nil, h' => by
    cases h' <;> exact .value rfl
  | .cons hv hvs, .nil => .value rfl
  | .cons hv hvs, .cons hv' hvs' => by
    simp only [Lisplet.sameItems]
    refine (hv.same limit hv').bind fun b c hbc => ?_
    subst hbc
    split
    · exact hvs.sameItems limit hvs'
    · exact .value rfl

end

mutual

/-- Tests of order come to the same for paired values. -/
theorem Value.Paired.holds {v w v' w' : Value} (limit : Nat) (r : Relation) :
    v.Paired κ w → v'.Paired κ w' →
    Outcome.Paired κ Eq (v.holds limit r v') (w.holds limit r w')
  | .list hid hvs, h' => by
    cases h' with
    | list hid' hvs' =>
      simp only [Value.holds, oneList_paired hid hid' hvs hvs']
      split
      · exact .value rfl
      · cases limit with
        | zero => exact .exhausted
        | succ limit => exact hvs.itemsHold limit r hvs'
    | _ => exact .fault (Eq.refl _)
  | .bool, h' | .int, h' | .text, h' => by
    cases h' <;> first | exact .value rfl | exact .fault (Eq.refl _)
  | .noValue, h' | .symbol _, h' | .primitive, h' | .closure _ _ _ _, h' => by
    cases h' <;> exact .fault (Eq.refl _)

theorem AllPaired.itemsHold {vs ws vs' ws' : List Value} (limit : Nat) (r : Relation) :
    AllPaired κ vs ws → AllPaired κ vs' ws' →
    Outcome.Paired κ Eq (itemsHold limit r vs vs') (itemsHold limit r ws ws')
  | .nil, .nil => .value rfl
  | .nil, .cons _ hvs' => .value (by simp [hvs'.length_eq])
  | .cons _ hvs, .nil => .value (by simp [hvs.length_eq])
  | .cons hv hvs, .cons hv' hvs' => by
    simp only [Lisplet.itemsHold]
    refine (hv.same limit hv').bind fun b c hbc => ?_
    subst hbc
    split
    · exact hvs.itemsHold limit r hvs'
    · exact hv.holds limit r hv'

end

/-! ## Primitives -/

namespace Primitive

variable {v w v' w' : Value} {limit : Nat}

theorem integer_paired (p : Primitive) (h : v.Paired κ w) :
    Outcome.Paired κ Eq (p.integer limit v) (p.integer limit w) := by
  have hshow := h.describe limit
  cases h with
  | int => exact .value rfl
  | _ => exact hshow.bind fun a b hab => .fault ⟨rfl, hab⟩

theorem items_paired (p : Primitive) (h : v.Paired κ w) :
    Outcome.Paired κ (AllPaired κ) (p.items limit v) (p.items limit w) := by
  have hshow := h.describe limit
  cases h with
  | list _ hvs => exact .value hvs
  | _ => exact hshow.bind fun a b hab => .fault ⟨rfl, hab⟩

theorem arithmetic_paired (p : Primitive) {f : Int → Int → Outcome Int}
    (hf : ∀ m n e, f m n = .fault e → e.Paired κ e) (h : v.Paired κ w) (h' : v'.Paired κ w') :
    Outcome.Paired κ (Value.Paired κ) (p.arithmetic limit f v v') (p.arithmetic limit f w w') := by
  refine (p.integer_paired h).bind fun m m' hm => ?_
  refine (p.integer_paired h').bind fun n n' hn => ?_
  subst hm hn
  refine (Outcome.Paired.of_eq (hf m n)).bind fun r r' hr => ?_
  subst hr
  exact .value .int

/-- Calls of a primitive with paired arguments come to the same, where the lists that they make have
paired identities. -/
theorem call_paired {id id' : ObjectId} (hid : κ.object id id') (p : Primitive)
    {args args' : List Value} (h : AllPaired κ args args') :
    Outcome.Paired κ (Value.Paired κ) (p.call limit id args) (p.call limit id' args') := by
  have hlist : (Value.list (some id) args).Paired κ (.list (some id') args') := .list (.some hid) h
  match h with
  | .nil =>
    cases p with
    | list => exact .value hlist
    | _ => exact .fault (Eq.refl _)
  | .cons ha .nil =>
    cases p with
    | list => exact .value hlist
    | not => exact .value (.of_eq (by rw [ha.isTrue_eq]))
    | isList => exact .value (.of_eq ha.isList_eq)
    | isNull => exact .value (.of_eq (by rw [ha.isList_eq, ha.asList.isEmpty_eq]))
    | isSymbol => exact .value (.of_eq ha.name?_isSome_eq)
    | length => exact (items_paired _ ha).bind fun vs ws hvs => .value (hvs.length_eq ▸ .int)
    | car =>
      refine (items_paired _ ha).bind fun vs ws hvs => .value ?_
      cases hvs with
      | nil => exact .noValue
      | cons hv _ => exact hv
    | cdr =>
      refine (items_paired _ ha).bind fun vs ws hvs => .value (.list (.some hid) ?_)
      cases hvs with
      | nil => exact .nil
      | cons _ hvs => exact hvs
    | _ => exact .fault (Eq.refl _)
  | .cons ha (.cons hb .nil) =>
    cases p with
    | list => exact .value hlist
    | cons => exact .value (.list (.some hid) (ha.asList.append hb.asList))
    | add | sub | mul =>
      exact arithmetic_paired _ (fun _ _ _ hf => by cases hf) ha hb
    | div =>
      refine arithmetic_paired _ (fun m n e hf => ?_) ha hb
      unfold quotient at hf
      split at hf
      · cases hf
        exact Eq.refl _
      · cases hf
    | eqNumber | eqIdentity | eqStructure =>
      exact (ha.same limit hb).bind fun b c hbc => .value (.of_eq hbc)
    | less | greater | lessEq | greaterEq =>
      exact (ha.holds limit _ hb).bind fun b c hbc => .value (.of_eq hbc)
    | _ => exact .fault (Eq.refl _)
  | .cons _ (.cons _ (.cons _ hrest)) =>
    cases p with
    | list => exact .value hlist
    | _ =>
      refine .fault ?_
      simp [Fault.Paired, hrest.length_eq]

end Primitive

/-! ## Bindings and frames -/

/-- The bindings bind paired names to paired values, in the same order. -/
def Bindings.Paired (κ : Pairing) (b b' : Bindings) : Prop :=
  List.Forall₂ (fun p q => κ.name p.1 q.1 ∧ p.2.Paired κ q.2) b b'

namespace Bindings.Paired

variable {b b' : Bindings} {x y : String} {v w : Value}

theorem mono (hκ : κ.Le κ') (h : b.Paired κ b') : b.Paired κ' b' :=
  List.Forall₂.imp (fun _ _ hp => ⟨hκ.name.1 hp.1, hp.2.mono hκ⟩) h

/-- Looking up paired names gives paired values. -/
theorem get? (h : b.Paired κ b') (hx : κ.name x y) :
    Option.Rel (Value.Paired κ) (b.get? x) (b'.get? y) := by
  induction h with
  | nil => exact .none
  | @cons p q b b' hp _ ih =>
    have hname : p.1 = x ↔ q.1 = y := κ.name_eq_iff hp.1 hx
    simp only [Bindings.get?]
    by_cases hpx : p.1 = x
    · rw [if_pos hpx, if_pos (hname.1 hpx)]
      exact .some hp.2
    · rw [if_neg hpx, if_neg (hname.not.1 hpx)]
      exact ih

theorem binds_eq (h : b.Paired κ b') (hx : κ.name x y) : b.binds x = b'.binds y :=
  isSome_eq_of_rel (h.get? hx)

/-- Binding paired names to paired values keeps bindings paired. -/
theorem set (h : b.Paired κ b') (hx : κ.name x y) (hv : v.Paired κ w) :
    (b.set x v).Paired κ (b'.set y w) := by
  induction h with
  | nil => exact .cons ⟨hx, hv⟩ .nil
  | @cons p q b b' hp hb ih =>
    have hname : p.1 = x ↔ q.1 = y := κ.name_eq_iff hp.1 hx
    simp only [Bindings.set]
    by_cases hpx : p.1 = x
    · rw [if_pos hpx, if_pos (hname.1 hpx)]
      exact .cons ⟨hp.1, hv⟩ hb
    · rw [if_neg hpx, if_neg (hname.not.1 hpx)]
      exact .cons hp ih

/-- Bindings made from paired pairs are paired. -/
theorem ofPairs {pairs pairs' : List (String × Value)}
    (h : List.Forall₂ (fun p q => κ.name p.1 q.1 ∧ p.2.Paired κ q.2) pairs pairs') :
    (Bindings.ofPairs pairs).Paired κ (Bindings.ofPairs pairs') := by
  suffices ∀ b b' : Bindings, b.Paired κ b' → (b.setAll pairs).Paired κ (b'.setAll pairs') from
    this [] [] .nil
  induction h with
  | nil => exact fun _ _ hb => hb
  | cons hp _ ih => exact fun b b' hb => ih _ _ (hb.set hp.1 hp.2)

end Bindings.Paired

/-- Primitives refer to nothing. -/
theorem standardBindings_paired (hname : ∀ x, κ.name x x) (home : FrameId) :
    (Store.standardBindings home).Paired κ (Store.standardBindings home) := by
  refine List.forall₂_same.2 fun p hp => ⟨hname p.1, ?_⟩
  obtain ⟨q, -, rfl⟩ := List.mem_map.1 hp
  exact .primitive

/-- The frames bind paired names to paired values, inside paired outer frames. -/
structure Frame.Paired (κ : Pairing) (f f' : Frame) : Prop where
  bindings : f.bindings.Paired κ f'.bindings
  outer : Option.Rel κ.frame f.outer f'.outer

theorem Frame.Paired.mono (hκ : κ.Le κ') {f f' : Frame} (h : f.Paired κ f') : f.Paired κ' f' where
  bindings := h.bindings.mono hκ
  outer := rel_imp (fun _ _ => hκ.frame) h.outer

/-! ## Parameters -/

/-- Names that are paired, place by place. -/
abbrev Pairing.names (κ : Pairing) : List String → List String → Prop :=
  List.Forall₂ κ.name

/-- What is paired with symbols is symbols. -/
theorem AllPaired.exists_symbols {names : List String} {ws : List Value}
    (h : AllPaired κ (symbols names) ws) : ∃ names', ws = symbols names' ∧ κ.names names names' := by
  induction names generalizing ws with
  | nil =>
    cases h
    exact ⟨[], rfl, .nil⟩
  | cons x names ih =>
    cases h with
    | cons hv hvs =>
      cases hv with
      | symbol hx =>
        obtain ⟨names', rfl, hnames⟩ := ih hvs
        exact ⟨_ :: names', rfl, .cons hx hnames⟩

/-- What is paired with two parts put together has two such parts. -/
theorem AllPaired.split {vs vs' ws : List Value} (h : AllPaired κ (vs ++ vs') ws) :
    ∃ us us', ws = us ++ us' ∧ AllPaired κ vs us ∧ AllPaired κ vs' us' := by
  induction vs generalizing ws with
  | nil => exact ⟨[], ws, rfl, .nil, h⟩
  | cons v vs ih =>
    cases h with
    | cons hv hvs =>
      obtain ⟨us, us', rfl, hus, hus'⟩ := ih hvs
      exact ⟨_ :: us, us', rfl, .cons hv hus, hus'⟩

/-- There are lists among paired values in one run exactly if there are in the other. -/
theorem AllPaired.exists_isList_iff {vs ws : List Value} (h : AllPaired κ vs ws) :
    (∃ v ∈ vs, v.isList = true) ↔ ∃ w ∈ ws, w.isList = true := by
  have hforall := allPaired_iff.1 h
  clear h
  induction hforall with
  | nil => simp
  | cons hv _ ih => simp [hv.isList_eq, ih]

/-- Paired values are all symbols in one run exactly if they are in the other. -/
theorem AllPaired.symbols_iff {vs ws : List Value} (h : AllPaired κ vs ws) :
    (∃ names, vs = symbols names) ↔ ∃ names, ws = symbols names := by
  have hall : vs.all (·.name?.isSome) = ws.all (·.name?.isSome) := by
    have hforall := allPaired_iff.1 h
    clear h
    induction hforall with
    | nil => rfl
    | cons hv _ ih => simp [hv.name?_isSome_eq, ih]
  rw [← all_name?_iff, ← all_name?_iff, hall]

/-- The bodies made from paired forms are paired. -/
theorem AllPaired.bodyOf {vs ws : List Value} (h : AllPaired κ vs ws) :
    (Value.bodyOf vs).Paired κ (Value.bodyOf ws) := by
  have hbegin : (Value.literal (.symbol Keyword.begin.name :: vs)).Paired κ
      (.literal (.symbol Keyword.begin.name :: ws)) :=
    .list .none (.cons (.symbol (κ.keyword_name .begin)) h)
  match h with
  | .nil => exact hbegin
  | .cons hv .nil => exact hv
  | .cons _ (.cons _ _) => exact hbegin

/-- The pairs of paired names and paired values. -/
theorem Pairing.zip {names names' : List String} {vs ws : List Value} (h : κ.names names names')
    (hvs : AllPaired κ vs ws) :
    List.Forall₂ (fun p q => κ.name p.1 q.1 ∧ p.2.Paired κ q.2) (names.zip vs) (names'.zip ws) := by
  induction h generalizing vs ws with
  | nil => exact .nil
  | cons hx _ ih =>
    cases hvs with
    | nil => exact .nil
    | cons hv hvs => exact .cons ⟨hx, hv⟩ (ih hvs)

end Lisplet
