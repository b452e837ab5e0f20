import Lisplet.Proofs.Sessions

/-!
# Isolation of frames that cannot be reached

A form gets at no frames but those that are reachable from the frame it is evaluated in and from the
closures in it, and those that are made on the way. All other frames stay as they are, and no store
that has the same reachable frames makes a difference, up to the numbers of what is new.

It follows that sessions on one machine do not disturb each other. Two machines are linked along a
pairing of what a session has in one with what it has in the other; its own turns extend the link, and
turns of another session touch none of it.

Main definitions: `Pairing.ahead`, `Linked`, `Turn`, `Turn.played`, `Session.seenBy`. Main statements:
`Linked.matched`, `evaluate_sharing`, `Apart.played`, `evaluate_isolated`.
-/

namespace Lisplet

variable {κ κ' : Pairing} {m m' n n' : Machine} {limit : Nat}

/-! ## What is added next -/

/-- Numbers that are there already are related as before, and those to come are related in step. -/
def InStep (R : Nat → Nat → Prop) (m n a b : Nat) : Prop :=
  (R a b ∧ a < m ∧ b < n) ∨ ∃ k, a = m + k ∧ b = n + k

theorem InStep.lt_iff {R : Nat → Nat → Prop} (hR : ∀ {a b c d}, R a b → R c d → (a < c ↔ b < d))
    {m n a b c d : Nat} (h : InStep R m n a b) (h' : InStep R m n c d) : a < c ↔ b < d := by
  rcases h with ⟨hab, ha, hb⟩ | ⟨k, rfl, rfl⟩
  · rcases h' with ⟨hcd, -, -⟩ | ⟨k, rfl, rfl⟩
    · exact hR hab hcd
    · omega
  · rcases h' with ⟨-, hc, hd⟩ | ⟨k', rfl, rfl⟩ <;> omega

/-- The pairing, for what is in two stores, and the next frames and objects of one store with the next
ones of the other. -/
def Pairing.ahead (κ : Pairing) (s t : Store) : Pairing where
  frame := InStep κ.frame s.frames.size t.frames.size
  object := InStep κ.object s.objects t.objects
  name := κ.name
  dangling := False
  frame_lt_iff := InStep.lt_iff κ.frame_lt_iff
  object_lt_iff := InStep.lt_iff κ.object_lt_iff
  name_eq_iff := κ.name_eq_iff
  keyword_name := κ.keyword_name

/-- Two machines that hold the same, up to a pairing of things that are in their stores. -/
structure Linked (κ : Pairing) (m n : Machine) : Prop where
  frame_lt : ∀ {a b}, κ.frame a b → a < m.store.frames.size ∧ b < n.store.frames.size
  object_lt : ∀ {a b}, κ.object a b → a < m.store.objects ∧ b < n.store.objects
  frames : ∀ {a b}, κ.frame a b →
    Option.Rel (Frame.Paired κ) (m.store.frame? a) (n.store.frame? b)
  outer_lt : ∀ {a b f o}, κ.frame a b → m.store.frame? a = some f → f.outer = some o → o < a
  threshold_eq : m.log.threshold = n.log.threshold

namespace Linked

theorem le (h : Linked κ m n) : κ.Le ((κ.ahead m.store n.store).within m.store) where
  frame hab := ⟨Or.inl ⟨hab, h.frame_lt hab⟩, Or.inr (h.frame_lt hab).1⟩
  object hab := ⟨Or.inl ⟨hab, h.object_lt hab⟩, Or.inr (h.object_lt hab).1⟩
  name := Iff.rfl

/-- Linked machines are matched along the pairing that goes on with what is added next. -/
theorem matched (h : Linked κ m n) : Matched (κ.ahead m.store n.store) m n where
  next_frame k := Or.inr ⟨k, rfl, rfl⟩
  next_object k := Or.inr ⟨k, rfl, rfl⟩
  frames := by
    rintro a b (⟨hab, -⟩ | ⟨k, rfl, rfl⟩)
    · exact rel_imp (fun _ _ hf => hf.mono h.le) (h.frames hab)
    · have hm : m.store.frame? (m.store.frames.size + k) = none :=
        Array.getElem?_eq_none (Nat.le_add_right ..)
      have hn : n.store.frame? (n.store.frames.size + k) = none :=
        Array.getElem?_eq_none (Nat.le_add_right ..)
      rw [hm, hn]
      exact .none
  outer_lt := by
    rintro a b f o (⟨hab, -⟩ | ⟨k, rfl, rfl⟩) hf ho
    · exact Or.inr (h.outer_lt hab hf ho)
    · exact absurd (Store.lt_size_of_frame? hf) (Nat.not_lt.2 (Nat.le_add_right ..))
  threshold_eq := h.threshold_eq

/-- Runs that leave the paired frames alone keep machines linked. -/
theorem kept {κ₁ κ₂ : Pairing} (h : Linked κ m n) (hm : Steps κ₁ m m') (hn : Steps κ₂ n n')
    (h₁ : ∀ {a b}, κ.frame a b → ∀ c, ¬ κ₁.frame a c)
    (h₂ : ∀ {a b}, κ.frame a b → ∀ c, ¬ κ₂.frame b c) : Linked κ m' n' where
  frame_lt hab := (h.frame_lt hab).imp (Nat.lt_of_lt_of_le · hm.frames_le)
    (Nat.lt_of_lt_of_le · hn.frames_le)
  object_lt hab := (h.object_lt hab).imp (Nat.lt_of_lt_of_le · hm.objects_le)
    (Nat.lt_of_lt_of_le · hn.objects_le)
  frames hab := by
    rw [hm.untouched (h₁ hab), hn.untouched (h₂ hab)]
    exact h.frames hab
  outer_lt hab hf ho := h.outer_lt hab (hm.untouched (h₁ hab) ▸ hf) ho
  threshold_eq := by rw [hm.threshold_eq, hn.threshold_eq, h.threshold_eq]

/-- Frames of one session are not among those that another session has, or makes next. -/
theorem not_ahead (h : Linked κ m n) (hdisjoint : ∀ {a b c}, κ.frame a b → ¬ κ'.frame a c)
    {a b : FrameId} (hab : κ.frame a b) (t : Store) (c : FrameId) :
    ¬ (κ'.ahead m.store t).frame a c := by
  rintro (⟨hac, -⟩ | ⟨k, rfl, -⟩)
  · exact hdisjoint hab hac
  · exact absurd (h.frame_lt hab).1 (Nat.not_lt.2 (Nat.le_add_right ..))

end Linked

/-- Matched machines are linked along what is in their stores by then. -/
theorem Matched.linked (h : Matched κ m n) (hκ : ¬ κ.dangling) : Linked (κ.within m.store) m n where
  frame_lt hab :=
    have ha := hab.2.resolve_left hκ
    ⟨ha, (κ.frame_lt_iff hab.1 (h.next_frame 0)).1 ha⟩
  object_lt hab :=
    have ha := hab.2.resolve_left hκ
    ⟨ha, (κ.object_lt_iff hab.1 (h.next_object 0)).1 ha⟩
  frames hab := h.frames hab.1
  outer_lt hab hf ho := (h.outer_lt hab.1 hf ho).resolve_left hκ
  threshold_eq := h.threshold_eq

/-- Runs from linked machines make equally many frames and objects. -/
theorem Simulated.made {α β : Type} {Q : Pairing → α → β → Prop} {r : Outcome α × Machine}
    {r' : Outcome β × Machine} (h : Simulated (κ.ahead m.store n.store) Q m r r') :
    ∃ frames objects,
      r.2.store.frames.size = m.store.frames.size + frames ∧
      r'.2.store.frames.size = n.store.frames.size + frames ∧
      r.2.store.objects = m.store.objects + objects ∧
      r'.2.store.objects = n.store.objects + objects := by
  rcases h.matched.next_frame 0 with ⟨-, hlt, -⟩ | ⟨frames, hm, hn⟩
  · exact absurd h.steps.frames_le (Nat.not_le.2 hlt)
  · rcases h.matched.next_object 0 with ⟨-, hlt, -⟩ | ⟨objects, hm', hn'⟩
    · exact absurd h.steps.objects_le (Nat.not_le.2 hlt)
    · exact ⟨frames, objects, hm, hn, hm', hn'⟩

/-! ## Evaluation among reachable frames -/

/-- Each of the given frames stands for itself, and so does each identity that both stores have given
away; what is made next in one store stands for what is made next in the other. -/
def Pairing.sharing (s t : Store) (frames : FrameId → Prop) : Pairing :=
  (Pairing.diagonal frames fun id => id < s.objects ∧ id < t.objects).ahead s t

/-- Regular stores that agree on reachable frames are linked along them. -/
theorem Store.Regular.linked {roots : List FrameId} (hm : m.store.Regular) (hn : n.store.Regular)
    (hroots : ∀ a ∈ roots, a < m.store.frames.size)
    (hagree : ∀ a, m.store.Reachable roots a → n.store.frame? a = m.store.frame? a)
    (hthreshold : m.log.threshold = n.log.threshold) :
    Linked (.diagonal (m.store.Reachable roots) fun id =>
      id < m.store.objects ∧ id < n.store.objects) m n where
  frame_lt := by
    rintro a _ ⟨rfl, ha⟩
    have hlt := hm.lt_of_reachable hroots ha
    obtain ⟨f, hf⟩ := Store.exists_frame? hlt
    exact ⟨hlt, Store.lt_size_of_frame? ((hagree a ha).trans hf)⟩
  object_lt := by
    rintro a _ ⟨rfl, ha⟩
    exact ha
  frames := by
    rintro a _ ⟨rfl, ha⟩
    rw [hagree a ha]
    cases hf : m.store.frame? a with
    | none => exact .none
    | some f =>
      have hfn : n.store.frame? a = some f := (hagree a ha).trans hf
      refine .some (Frame.paired_self (fun _ => rfl) ?_ ?_ ?_)
      · intro p hp b hb
        exact ⟨rfl, .bound ha hf hp hb⟩
      · intro p hp id hid
        exact ⟨rfl, hm.issued hf hp id hid, hn.issued hfn hp id hid⟩
      · intro o ho
        exact ⟨rfl, .outer ha hf ho⟩
  outer_lt _ hf ho := hm.outer_lt hf ho
  threshold_eq := hthreshold

/-- Evaluation comes to the same in regular stores that agree on what it can reach. -/
theorem evaluate_sharing (limit : Nat) {i : FrameId} {form : Value} (hm : m.store.Regular)
    (hn : n.store.Regular) (hi : i < m.store.frames.size) (hform : form.Within m.store.frames.size)
    (hissued : ∀ id ∈ form.identities, id < m.store.objects ∧ id < n.store.objects)
    (hagree : ∀ a, m.store.Reachable (i :: form.captured) a →
      n.store.frame? a = m.store.frame? a)
    (hthreshold : m.log.threshold = n.log.threshold) :
    Simulated (.sharing m.store n.store (m.store.Reachable (i :: form.captured))) Value.Paired m
      (evaluate limit form i m) (evaluate limit form i n) := by
  have hroots : ∀ a ∈ i :: form.captured, a < m.store.frames.size :=
    List.forall_mem_cons.2 ⟨hi, Value.within_iff.1 hform⟩
  have hlinked := hm.linked hn hroots hagree hthreshold
  have hroot : ∀ a ∈ i :: form.captured, (Pairing.diagonal (m.store.Reachable (i :: form.captured))
      fun id => id < m.store.objects ∧ id < n.store.objects).frame a a :=
    fun a ha => ⟨rfl, .root ha⟩
  obtain ⟨hframe, hcaptured⟩ := List.forall_mem_cons.1 hroot
  have hpaired := Value.paired_self (fun _ => rfl) hcaptured fun id hid => ⟨rfl, hissued id hid⟩
  exact evaluate_simulates _ limit hlinked.matched (hpaired.mono hlinked.le)
    (hlinked.le.frame hframe)

/-- A machine with a regular store is matched with itself along everything in it. -/
theorem Store.Regular.matched (h : m.store.Regular) :
    Matched (.diagonal (fun _ => True) fun _ => True) m m where
  next_frame _ := ⟨rfl, trivial⟩
  next_object _ := ⟨rfl, trivial⟩
  frames := by
    rintro a _ ⟨rfl, -⟩
    cases hf : m.store.frame? a with
    | none => exact .none
    | some f =>
      refine .some (Frame.paired_self (fun _ => rfl) ?_ ?_ ?_)
      · intro p hp b hb
        exact ⟨⟨rfl, trivial⟩, Or.inr (Value.within_iff.1 (h.within hf hp) b hb)⟩
      · intro p hp id hid
        exact ⟨⟨rfl, trivial⟩, Or.inr (h.issued hf hp id hid)⟩
      · intro o ho
        exact ⟨⟨rfl, trivial⟩,
          Or.inr (Nat.lt_trans (h.outer_lt hf ho) (Store.lt_size_of_frame? hf))⟩
  outer_lt _ hf ho := Or.inr (h.outer_lt hf ho)
  threshold_eq := rfl

theorem Matched.regular (h : Matched (.diagonal (fun _ => True) fun _ => True) m m) :
    m.store.Regular where
  outer_lt hf ho := (h.outer_lt ⟨rfl, trivial⟩ hf ho).resolve_left id
  within := by
    intro i f p hf hp
    exact (h.diagonal_value trivial hf hp).within
  issued := by
    intro i f p hf hp a ha
    obtain ⟨b, -, hlt⟩ := (h.diagonal_value trivial hf hp).identities a ha
    exact hlt.resolve_left id

/-- Evaluation keeps stores regular. -/
theorem evaluate_regular {i : FrameId} {form : Value} (hm : m.store.Regular)
    (hi : i < m.store.frames.size) (hform : form.Within m.store.frames.size)
    (hissued : ∀ id ∈ form.identities, id < m.store.objects) :
    (evaluate limit form i m).2.store.Regular := by
  have hpaired : form.Paired ((Pairing.diagonal (fun _ => True) fun _ => True).within m.store) form :=
    Value.paired_self (fun _ => rfl)
      (fun a ha => ⟨⟨rfl, trivial⟩, Or.inr (Value.within_iff.1 hform a ha)⟩)
      (fun id hid => ⟨⟨rfl, trivial⟩, Or.inr (hissued id hid)⟩)
  exact (evaluate_simulates _ limit hm.matched hpaired ⟨⟨rfl, trivial⟩, Or.inr hi⟩).matched.regular

/-! ## What clients see -/

/-- What a client sees of an outcome: the value, or the class and the message of the fault. -/
def Outcome.seen {α : Type} : Outcome α → Except (Option (FaultKind × String)) α
  | .value a => .ok a
  | .fault f => .error (some (f.kind, f.message))
  | .exhausted => .error none

/-- Paired faults look the same, if names stand for themselves. -/
theorem Fault.Paired.seen_eq {f f' : Fault} (hname : ∀ x y, κ.name x y → x = y)
    (h : f.Paired κ f') : (f.kind, f.message) = (f'.kind, f'.message) := by
  -- Seven causes carry names or texts. All others are paired with themselves only.
  cases f with
  | cannotBind shown | badParameters shown =>
    cases f' with
    | cannotBind shown' | badParameters shown' => first | rw [h hname] | cases h
    | _ => cases h
  | badTarget k shown | notInteger p shown | notList p shown =>
    cases f' with
    | badTarget k' shown' | notInteger p' shown' | notList p' shown' =>
      first | rw [h.1, h.2 hname] | cases h
    | _ => cases h
  | unbound x =>
    cases f' with
    | unbound y => rw [hname _ _ h]
    | _ => cases h
  | notCallable v shown =>
    cases f' with
    | notCallable w shown' =>
      rw [h.2 hname]
      rfl
    | _ => cases h
  | _ =>
    cases h
    rfl

theorem Outcome.Paired.seen_eq {α : Type} {o o' : Outcome α} (hname : ∀ x y, κ.name x y → x = y)
    (h : Outcome.Paired κ κ.Alike o o') : o.seen = o'.seen := by
  cases h with
  | value hab => rw [hab hname]
  | fault he => simp only [Outcome.seen, he.seen_eq hname]
  | exhausted => rfl

/-- Paired bindings have the same names, if names stand for themselves. -/
theorem Bindings.Paired.names_eq {b b' : Bindings} (hname : ∀ x y, κ.name x y → x = y)
    (h : b.Paired κ b') : b.names = b'.names := by
  induction h with
  | nil => rfl
  | cons hp _ ih =>
    simp only [Bindings.names, List.map_cons, List.cons.injEq]
    exact ⟨hname _ _ hp.1, ih⟩

theorem Bindings.Paired.values {b b' : Bindings} (h : b.Paired κ b') :
    AllPaired κ (b.map (·.2)) (b'.map (·.2)) := by
  induction h with
  | nil => exact .nil
  | cons hp _ ih => exact .cons hp.2 ih

/-- The bindings that a session shows: all but those of primitives to their own names. -/
def Bindings.shown (b : Bindings) : Bindings :=
  b.filter fun p =>
    match p.2 with
    | .primitive q _ => q.name ≠ p.1
    | _ => true

theorem Bindings.Paired.shown {b b' : Bindings} (hname : ∀ x y, κ.name x y → x = y)
    (h : b.Paired κ b') : b.shown.Paired κ b'.shown := by
  refine List.rel_filter ?_ h
  rintro ⟨x, v⟩ ⟨y, w⟩ ⟨hx, hv⟩
  obtain rfl := hname x y hx
  cases hv <;> rfl

/-- The global bindings are described one after the other. -/
theorem Session.globals_fst (limit : Nat) (s : Session) (m : Machine) :
    (s.globals limit m).1 =
      describeAll limit ((m.store.bindings s.global).shown.map (·.2)) >>= fun texts =>
        .value ((m.store.bindings s.global).shown.names.zip texts) := by
  unfold Session.globals
  rw [Run.bind_of_value _ (Run.query_apply ..)]
  show ((Run.lift (describeAll limit ((m.store.bindings s.global).shown.map (·.2))) >>= _ :
    Run (List (String × String))) m).1 = _
  generalize describeAll limit _ = o
  cases o with
  | value texts => rw [Run.bind_of_value _ (Run.lift_apply ..)]; rfl
  | fault f => rw [Run.bind_of_fault _ (Run.lift_apply ..)]; rfl
  | exhausted => rw [Run.bind_of_exhausted _ (Run.lift_apply ..)]; rfl

/-- The global bindings of linked machines look the same. -/
theorem Linked.globals_seen_eq {s : Session} (h : Linked κ m n)
    (hname : ∀ x y, κ.name x y → x = y) (hs : κ.frame s.global s.global) (limit : Nat) :
    (s.globals limit m).1.seen = (s.globals limit n).1.seen := by
  have hshown := (bindings_paired (h.frames hs)).shown hname
  rw [Session.globals_fst, Session.globals_fst]
  refine Outcome.Paired.seen_eq hname ((hshown.values.describeAll limit).bind fun a b hab => ?_)
  exact .value fun _ => by rw [hshown.names_eq hname, hab hname]

/-! ## Sessions that take turns -/

/-- One evaluation of a source in a session, under a depth limit of its own. -/
structure Turn where
  session : Session
  limit : Nat
  source : String

/-- Takes a turn: the printed text of the last value is the result. -/
def Turn.take (turn : Turn) : Run String :=
  turn.session.run turn.limit turn.source

/-- The machine after turns, one after the other. -/
def Turn.played : List Turn → Machine → Machine
  | [], m => m
  | turn :: turns, m => played turns (turn.take m).2

/-- What the client of a session sees of its turns. -/
def Session.seenBy (s : Session) : List Turn → Machine →
    List (Except (Option (FaultKind × String)) String)
  | [], _ => []
  | turn :: turns, m =>
    if turn.session = s then (turn.take m).1.seen :: s.seenBy turns (turn.take m).2
    else s.seenBy turns (turn.take m).2

/-- What holds between turns of two sessions: on the machine where both take turns, what the first has is
linked to what it has on a machine where it is alone, and what the second has is apart from that. -/
structure Apart (u v : Session) (m n : Machine) (κ κ' : Pairing) : Prop where
  own : Linked κ m n
  other : Linked κ' m m
  diagonal : ∀ {a b}, κ'.frame a b → a = b
  disjoint : ∀ {a b c}, κ.frame a b → ¬ κ'.frame a c
  global : κ.frame u.global u.global
  otherGlobal : κ'.frame v.global v.global
  name_iff : ∀ {x y}, κ.name x y ↔ x = y
  name_self : ∀ x, κ'.name x x

namespace Apart

variable {u v : Session}

/-- A turn of the first session is seen alike on both machines, and touches nothing that the second
has. -/
theorem own_turn (h : Apart u v m n κ κ') (limit : Nat) (source : String) :
    (u.run limit source m).1.seen = (u.run limit source n).1.seen ∧
      ∃ κ₁, Apart u v (u.run limit source m).2 (u.run limit source n).2 κ₁ κ' := by
  have hself : ∀ x, (κ.ahead m.store n.store).name x x := fun x => h.name_iff.2 rfl
  have hrun : Simulated (κ.ahead m.store n.store) (fun κ => κ.Alike) m (u.run limit source m)
      (u.run limit source n) :=
    Session.run_simulated hself source h.own.matched (h.own.le.frame h.global)
  have hname : ∀ x y,
      ((κ.ahead m.store n.store).within (u.run limit source m).2.store).name x y → x = y :=
    fun x y hxy => h.name_iff.1 hxy
  refine ⟨hrun.outcome.seen_eq hname,
    (κ.ahead m.store n.store).within (u.run limit source m).2.store, ?_⟩
  -- What the second session has is not among what the first session has, or makes in this turn.
  have hapart : ∀ {a b}, κ'.frame a b → ∀ c, ¬ (κ.ahead m.store n.store).frame a c :=
    fun hab => h.other.not_ahead (fun hac hab => h.disjoint hab hac) hab n.store
  exact
    { own := hrun.matched.linked id
      other := h.other.kept hrun.steps hrun.steps hapart
        fun hab => h.diagonal hab ▸ hapart hab
      diagonal := h.diagonal
      disjoint := fun hab hac => hapart hac _ hab.1
      global := hrun.steps.le.frame (h.own.le.frame h.global)
      otherGlobal := h.otherGlobal
      name_iff := h.name_iff
      name_self := h.name_self }

/-- A turn of the second session touches nothing that the first has. -/
theorem other_turn (h : Apart u v m n κ κ') (limit : Nat) (source : String) :
    ∃ κ₁', Apart u v (v.run limit source m).2 n κ κ₁' := by
  have hself : ∀ x, (κ'.ahead m.store m.store).name x x := h.name_self
  have hrun : Simulated (κ'.ahead m.store m.store) (fun κ => κ.Alike) m (v.run limit source m)
      (v.run limit source m) :=
    Session.run_simulated hself source h.other.matched (h.other.le.frame h.otherGlobal)
  have hapart : ∀ {a b}, κ.frame a b → ∀ c, ¬ (κ'.ahead m.store m.store).frame a c :=
    fun hab => h.own.not_ahead h.disjoint hab m.store
  have hnone : Steps (.diagonal (fun _ => False) fun _ => False) n n := .refl _ n
  refine ⟨(κ'.ahead m.store m.store).within (v.run limit source m).2.store, ?_⟩
  exact
    { own := h.own.kept hrun.steps hnone hapart fun _ _ hbc => hbc.2
      other := hrun.matched.linked id
      diagonal := by
        rintro a b ⟨⟨hab, -⟩ | ⟨k, rfl, rfl⟩, -⟩
        · exact h.diagonal hab
        · rfl
      disjoint := fun hab hac => hapart hab _ hac.1
      global := h.global
      otherGlobal := hrun.steps.le.frame (h.other.le.frame h.otherGlobal)
      name_iff := h.name_iff
      name_self := h.name_self }

/-- The first session sees of its turns what it sees without the turns of the second, and the machines
stay linked. -/
theorem played (h : Apart u v m n κ κ') {turns : List Turn}
    (hturns : ∀ turn ∈ turns, turn.session = u ∨ turn.session = v) :
    u.seenBy turns m = u.seenBy (turns.filter (·.session = u)) n ∧
      ∃ κ₁ κ₁', Apart u v (Turn.played turns m) (Turn.played (turns.filter (·.session = u)) n)
        κ₁ κ₁' := by
  induction turns generalizing m n κ κ' with
  | nil => exact ⟨rfl, κ, κ', h⟩
  | cons turn turns ih =>
    obtain ⟨hturn, hturns⟩ := List.forall_mem_cons.1 hturns
    by_cases hown : turn.session = u
    · obtain ⟨hseen, κ₁, hnext⟩ := h.own_turn turn.limit turn.source
      obtain ⟨hrest, hlater⟩ := ih hnext hturns
      rw [List.filter_cons_of_pos (by simpa using hown)]
      simp only [Session.seenBy, Turn.played, Turn.take, hown, if_true]
      exact ⟨by rw [hseen, hrest], hlater⟩
    · obtain ⟨κ₁', hnext⟩ := h.other_turn turn.limit turn.source
      obtain ⟨hrest, hlater⟩ := ih hnext hturns
      rw [List.filter_cons_of_neg (by simpa using hown), Session.seenBy, if_neg hown, Turn.played,
        Turn.take, hturn.resolve_left hown]
      exact ⟨hrest, hlater⟩

/-- So the turns of the second session make no difference to what the first sees and has. -/
theorem undisturbed (h : Apart u v m n κ κ') {turns : List Turn}
    (hturns : ∀ turn ∈ turns, turn.session = u ∨ turn.session = v) :
    let alone := turns.filter (·.session = u)
    u.seenBy turns m = u.seenBy alone n ∧
    (∀ limit, (u.globals limit (Turn.played turns m)).1.seen =
      (u.globals limit (Turn.played alone n)).1.seen) ∧
    ∃ κ : Pairing, (∀ x y, κ.name x y ↔ x = y) ∧
      ((Turn.played turns m).store.bindings u.global).Paired κ
        ((Turn.played alone n).store.bindings u.global) := by
  obtain ⟨hseen, κ₁, κ₁', hplayed⟩ := h.played hturns
  refine ⟨hseen, ?_, κ₁, fun x y => hplayed.name_iff, ?_⟩
  · exact hplayed.own.globals_seen_eq (fun x y => hplayed.name_iff.1) hplayed.global
  · exact bindings_paired (hplayed.own.frames hplayed.global)

end Apart

/-- A global frame with nothing but primitives refers to nothing. -/
theorem linked_standard {g home : FrameId}
    (hg : m.store.frame? g = some ⟨Store.standardBindings home, none⟩) :
    Linked (.diagonal (· = g) fun _ => False) m m where
  frame_lt := by
    rintro a _ ⟨rfl, rfl⟩
    exact ⟨Store.lt_size_of_frame? hg, Store.lt_size_of_frame? hg⟩
  object_lt hab := hab.2.elim
  frames := by
    rintro a _ ⟨rfl, rfl⟩
    rw [hg]
    exact .some ⟨standardBindings_paired (fun _ => rfl) home, .none⟩
  outer_lt := by
    rintro a _ f o ⟨rfl, rfl⟩ hf ho
    rw [hg] at hf
    cases hf
    cases ho
  threshold_eq := rfl

/-- Sessions with different global frames of that kind are apart. -/
theorem apart_of_standard {u v : Session} {home home' : FrameId} (huv : u.global ≠ v.global)
    (hu : m.store.frame? u.global = some ⟨Store.standardBindings home, none⟩)
    (hv : m.store.frame? v.global = some ⟨Store.standardBindings home', none⟩) :
    ∃ κ κ', Apart u v m m κ κ' :=
  ⟨_, _,
    { own := linked_standard hu
      other := linked_standard hv
      diagonal := fun hab => hab.1
      disjoint := fun hab hac => huv (hab.2.symm.trans hac.2)
      global := ⟨rfl, rfl⟩
      otherGlobal := ⟨rfl, rfl⟩
      name_iff := Iff.rfl
      name_self := fun _ => rfl }⟩

/-- Two new sessions are apart from each other. -/
theorem apart_of_blank {m₀ m₁ : Machine} {s t : Session}
    (hs : Session.blank m₀ = (.value s, m₁)) (ht : Session.blank m₁ = (.value t, m)) :
    (∃ κ κ', Apart s t m m κ κ') ∧ ∃ κ κ', Apart t s m m κ κ' := by
  obtain ⟨rfl, rfl⟩ : s = ⟨m₀.store.frames.size⟩ ∧ m₁ = m₀.withStandard := by
    cases hs
    exact ⟨rfl, rfl⟩
  obtain ⟨rfl, rfl⟩ : t = ⟨m₀.withStandard.store.frames.size⟩ ∧
      m = m₀.withStandard.withStandard := by
    cases ht
    exact ⟨rfl, rfl⟩
  have hne : m₀.store.frames.size ≠ m₀.withStandard.store.frames.size := by simp
  have hfirst : m₀.withStandard.withStandard.store.frame? m₀.store.frames.size =
      some ⟨Store.standardBindings m₀.store.frames.size, none⟩ := by
    rw [Machine.frame?_withStandard, if_neg hne, Machine.frame?_withStandard, if_pos rfl]
  have hsecond : m₀.withStandard.withStandard.store.frame? m₀.withStandard.store.frames.size =
      some ⟨Store.standardBindings m₀.withStandard.store.frames.size, none⟩ := by
    rw [Machine.frame?_withStandard, if_pos rfl]
  exact ⟨apart_of_standard hne hfirst hsecond, apart_of_standard hne.symm hsecond hfirst⟩

/-- **Isolation.** Let a form be evaluated in a frame of a regular store. Every frame of the store that
can be reached neither from that frame nor from the closures in the form stays as it is. In any other
regular store that agrees with the first on the reachable frames, and with a log that keeps the same
events, evaluation ends in the same way, up to the numbers of new frames and objects: the reachable
frames end up the same, and so do the new ones, of which there are equally many.

Let two sessions be made on one machine and take turns in any order. Each sees of its own turns what it
sees without the turns of the other, and its global bindings end up the same. -/
theorem evaluate_isolated :
    (∀ {limit : Nat} {i : FrameId} {form : Value} {m : Machine}, m.store.Regular →
      i < m.store.frames.size → form.Within m.store.frames.size →
      (∀ id ∈ form.identities, id < m.store.objects) →
      (∀ a, a < m.store.frames.size → ¬ m.store.Reachable (i :: form.captured) a →
        (evaluate limit form i m).2.store.frame? a = m.store.frame? a) ∧
      (evaluate limit form i m).2.store.Regular ∧
      ∀ n : Machine, n.store.Regular → (∀ id ∈ form.identities, id < n.store.objects) →
        (∀ a, m.store.Reachable (i :: form.captured) a → n.store.frame? a = m.store.frame? a) →
        m.log.threshold = n.log.threshold →
        let r := evaluate limit form i m
        let r' := evaluate limit form i n
        let κ := Pairing.sharing m.store n.store (m.store.Reachable (i :: form.captured))
        Outcome.Paired (κ.within r.2.store) (Value.Paired (κ.within r.2.store)) r.1 r'.1 ∧
        (∀ a b, κ.frame a b →
          Option.Rel (Frame.Paired (κ.within r.2.store)) (r.2.store.frame? a) (r'.2.store.frame? b)) ∧
        ∃ frames objects,
          r.2.store.frames.size = m.store.frames.size + frames ∧
          r'.2.store.frames.size = n.store.frames.size + frames ∧
          r.2.store.objects = m.store.objects + objects ∧
          r'.2.store.objects = n.store.objects + objects) ∧
    ∀ {m₀ m₁ m : Machine} {s t : Session}, Session.blank m₀ = (.value s, m₁) →
      Session.blank m₁ = (.value t, m) → ∀ turns : List Turn,
      (∀ turn ∈ turns, turn.session = s ∨ turn.session = t) → ∀ u, u = s ∨ u = t →
      let alone := turns.filter (·.session = u)
      u.seenBy turns m = u.seenBy alone m ∧
      (∀ limit, (u.globals limit (Turn.played turns m)).1.seen =
        (u.globals limit (Turn.played alone m)).1.seen) ∧
      ∃ κ : Pairing, (∀ x y, κ.name x y ↔ x = y) ∧
        ((Turn.played turns m).store.bindings u.global).Paired κ
          ((Turn.played alone m).store.bindings u.global) := by
  constructor
  · intro limit i form m hm hi hform hissued
    refine ⟨?_, evaluate_regular hm hi hform hissued, ?_⟩
    · intro a ha hunreachable
      have hself := evaluate_sharing limit hm hm hi hform
        (fun id hid => ⟨hissued id hid, hissued id hid⟩) (fun _ _ => rfl) rfl
      apply hself.steps.untouched
      rintro b (⟨⟨rfl, hreachable⟩, -⟩ | ⟨k, rfl, -⟩)
      · exact hunreachable hreachable
      · exact absurd ha (Nat.not_lt.2 (Nat.le_add_right ..))
    · intro n hn hissued' hagree hthreshold
      have hboth := evaluate_sharing limit hm hn hi hform
        (fun id hid => ⟨hissued id hid, hissued' id hid⟩) hagree hthreshold
      exact ⟨hboth.outcome, fun a b hab => hboth.matched.frames hab, hboth.made⟩
  · intro m₀ m₁ m s t hs ht turns hturns u hu
    obtain ⟨⟨_, _, hapart⟩, _, _, hapart'⟩ := apart_of_blank hs ht
    rcases hu with rfl | rfl
    · exact hapart.undisturbed hturns
    · exact hapart'.undisturbed fun turn h => (hturns turn h).symm

/-- Of two new sessions, the first defines a closure in its global frame and then takes `+` away: the
other global frame cannot be reached from there, nor does it matter whether it exists at all, and the
second session goes on adding. -/
theorem evaluate_isolated_pair :
    let alone := (Machine.new .warning).withStandard
    let m := alone.withStandard
    let form : Value := .literal [.symbol "define", .symbol "f",
      .literal [.symbol "lambda", .literal [.symbol "x"], .symbol "f"]]
    let κ := Pairing.sharing m.store alone.store (m.store.Reachable [0])
    let r := evaluate 9 form 0 m
    r.2.store.frame? 1 = m.store.frame? 1 ∧
    Option.Rel (Frame.Paired (κ.within r.2.store)) (r.2.store.frame? 0)
      ((evaluate 9 form 0 alone).2.store.frame? 0) ∧
    (Session.mk 1).seenBy
        [⟨⟨0⟩, 9, "(define + 1)"⟩, ⟨⟨1⟩, 9, "(+ 2 2)"⟩, ⟨⟨0⟩, 9, "(+ 2 2)"⟩] m =
      (Session.mk 1).seenBy [⟨⟨1⟩, 9, "(+ 2 2)"⟩] m := by
  intro alone m form κ r
  have hreach : ∀ a, m.store.Reachable [0] a → a = 0 := fun a =>
    Store.eq_of_reachable_standard (g := 0) rfl
  have hregular : alone.store.Regular := Store.Regular.empty.addStandard
  have hissued : ∀ id ∈ form.identities, id < 0 := fun id hid => nomatch hid
  obtain ⟨hlocal, hturns⟩ := evaluate_isolated
  obtain ⟨huntouched, -, hshared⟩ := @hlocal 9 0 form m hregular.addStandard (by decide)
    (by simp [form, Value.Within, AllWithin]) hissued
  refine ⟨?_, ?_, ?_⟩
  · exact huntouched 1 (by decide) fun h => absurd (hreach 1 h) (by decide)
  · have hagree : ∀ a, m.store.Reachable [0] a → alone.store.frame? a = m.store.frame? a := by
      intro a ha
      rw [hreach a ha]
      rfl
    obtain ⟨-, hframes, -⟩ := hshared alone hregular hissued hagree rfl
    exact hframes 0 0 (Or.inl ⟨⟨rfl, .root (by simp)⟩, by decide, by decide⟩)
  · have hfirst : Session.blank (Machine.new .warning) = (.value ⟨0⟩, alone) := rfl
    have hsecond : Session.blank alone = (.value ⟨1⟩, m) := rfl
    exact (hturns hfirst hsecond _ (by simp) ⟨1⟩ (Or.inr rfl)).1

end Lisplet
