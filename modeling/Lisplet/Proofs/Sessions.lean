import Lisplet.Proofs.Overrun
import Lisplet.Proofs.Reachability
import Lisplet.Proofs.Sources
import Mathlib.Logic.Relation

/-!
# The frames of a session

Whatever a client asks of a session, and however each call ends, the store stays well-formed: outer
links and captured frames refer to frames that are there, no outer link ever changes, and from every
frame that the session has made the outer links lead to its global frame. So every search for a name
ends, and a search for the name of a primitive ends with a value.

That a session refers to no frame but its own is the diagonal of the simulation: a machine is matched
with itself along the pairing of each frame of the session with itself.

Main definitions: `Session.Call`, `Session.after`, `Store.Outer`, `Pairing.own`. Main statements:
`Session.Advance.trans`, `Session.frames_rooted`.
-/

namespace Lisplet

/-! ## The frames from a place on -/

/-- Each frame from `base` on stands for itself, and so does every object and every name. -/
def Pairing.own (base : FrameId) : Pairing :=
  .diagonal (base ≤ ·) fun _ => True

variable {base : FrameId} {m m' m'' : Machine} {limit : Nat}

/-- A frame of the store, from `base` on, belongs to the part of the pairing that is there. -/
theorem own_within {i : FrameId} (hi : base ≤ i) (hlt : i < m.store.frames.size) :
    ((Pairing.own base).within m.store).frame i i :=
  ⟨⟨rfl, hi⟩, Or.inr hlt⟩

/-! ## What calls do to a store -/

/-- What becomes of a machine that runs programs in frames from `base` on: those frames still refer to
such frames only, the others stay as they are, and no scope loses anything. -/
structure Session.Advance (base : FrameId) (m m' : Machine) : Prop where
  matched : Matched (Pairing.own base) m' m'
  steps : Steps (Pairing.own base) m m'
  scopes : m.store.Extends (fun _ _ => True) m'.store

theorem Session.Advance.refl (h : Matched (Pairing.own base) m m) : Session.Advance base m m :=
  ⟨h, .refl _ _, .refl _ _⟩

theorem Session.Advance.trans (h₁ : Session.Advance base m m') (h₂ : Session.Advance base m' m'') :
    Session.Advance base m m'' :=
  ⟨h₂.matched, h₁.steps.trans h₂.steps, h₁.scopes.trans h₂.scopes fun _ _ _ _ h => h⟩

theorem evalForms_extends (i : FrameId) (last : Value) (forms : List Value) :
    (evalForms limit i last forms).Extends fun _ _ => True := by
  induction forms generalizing last with
  | nil => exact .pure _
  | cons form forms ih =>
    have hform : (evaluate limit form i).Extends fun _ _ => True :=
      ((eval_extends limit form i).guard .evaluating).mono fun _ _ _ => trivial
    exact (Run.Extends.report _ _).bind fun _ => hform.bind fun v => ih v

namespace Session

variable {s : Session}

theorem eval_extends (limit : Nat) (s : Session) (source : String) :
    (s.eval limit source).Extends fun _ _ => True := by
  refine (evalForms_extends s.global .noValue _).bind fun v => ?_
  split
  · exact .pure _
  · exact .lift _

/-- Evaluating a source advances the machine, however it ends. -/
theorem eval_advance (source : String) (h : Matched (Pairing.own base) m m)
    (hs : ((Pairing.own base).within m.store).frame s.global s.global) :
    Advance base m (s.eval limit source m).2 := by
  have hsimulated : Simulated (Pairing.own base) Value.Paired m (s.eval limit source m)
      (s.eval limit source m) := eval_simulated (fun _ => rfl) source h hs
  exact ⟨hsimulated.matched, hsimulated.steps, eval_extends limit s source m⟩

/-- Printing changes nothing. -/
theorem run_snd (limit : Nat) (s : Session) (source : String) (m : Machine) :
    (s.run limit source m).2 = (s.eval limit source m).2 :=
  Run.bind_ofExcept_snd ..

/-! ## Calls -/

/-- What a client can ask of a session, each time under a depth limit of its own. -/
inductive Call where
  | eval (limit : Nat) (source : String)
  | run (limit : Nat) (source : String)

/-- The machine after a call, whether it has a result or fails. -/
def Call.perform (s : Session) : Call → Machine → Machine
  | .eval limit source, m => (s.eval limit source m).2
  | .run limit source, m => (s.run limit source m).2

/-- The machine after calls, one after the other. -/
def after (s : Session) (calls : List Call) (m : Machine) : Machine :=
  calls.foldl (fun m c => c.perform s m) m

theorem Call.perform_advance (c : Call) (h : Matched (Pairing.own base) m m)
    (hs : ((Pairing.own base).within m.store).frame s.global s.global) :
    Advance base m (c.perform s m) := by
  cases c with
  | eval limit source => exact eval_advance source h hs
  | run limit source =>
    rw [Call.perform, run_snd]
    exact eval_advance source h hs

/-- Calls advance the machine. -/
theorem after_advance (calls : List Call) (h : Matched (Pairing.own base) m m)
    (hs : ((Pairing.own base).within m.store).frame s.global s.global) :
    Advance base m (s.after calls m) := by
  induction calls generalizing m with
  | nil => exact .refl h
  | cons c calls ih =>
    have hfirst := c.perform_advance h hs
    exact hfirst.trans (ih hfirst.matched (hfirst.steps.le.frame hs))

end Session

/-! ## A new session -/

/-- The machine with one more global frame. -/
def Machine.withStandard (m : Machine) : Machine :=
  { m with store := m.store.addStandard.2 }

theorem Machine.frame?_withStandard (m : Machine) (a : FrameId) :
    m.withStandard.store.frame? a =
      if a = m.store.frames.size then some ⟨Store.standardBindings m.store.frames.size, none⟩
      else m.store.frame? a :=
  Store.frame?_addFrame ..

@[simp]
theorem Machine.size_withStandard (m : Machine) :
    m.withStandard.store.frames.size = m.store.frames.size + 1 :=
  Store.size_frames_addFrame ..

/-- A new global frame refers to nothing, so it can be matched with itself. -/
theorem matched_withStandard (m : Machine) :
    Matched (Pairing.own m.store.frames.size) m.withStandard m.withStandard where
  next_frame k := ⟨rfl, Nat.le_trans (Nat.le_of_lt (Store.addFrame_fst_lt ..)) (Nat.le_add_right ..)⟩
  next_object k := ⟨rfl, trivial⟩
  frames := by
    rintro a b ⟨rfl, ha⟩
    rw [m.frame?_withStandard]
    split
    · exact .some ⟨standardBindings_paired (fun _ => rfl) _, .none⟩
    · next hne =>
      have hnone : m.store.frame? a = none := Array.getElem?_eq_none ha
      rw [hnone]
      exact .none
  outer_lt := by
    rintro a b f o ⟨rfl, ha⟩ hf ho
    rcases Store.frame?_addFrame_cases hf with hold | ⟨-, rfl⟩
    · exact absurd (Store.lt_size_of_frame? hold) (Nat.not_lt.2 ha)
    · cases ho
  threshold_eq := rfl

/-- The text of a prelude, if there is one that can be read. -/
def Prelude.text? (host : Host) : Prelude → Option String
  | .absent => none
  | .source code => some code
  | .configured => host.preludePath.bind fun path => (host.readText path).toOption

namespace Session

variable {s : Session} {host : Host} {prelude : Prelude}

/-- A report advances the machine. -/
theorem report_advance {e : Event} {text : String} (h : Matched (Pairing.own base) m m)
    (hmessage : e.message limit = .value text) : Advance base m (Run.report limit e m).2 := by
  have hpaired : Outcome.Paired ((Pairing.own base).within m.store) (Pairing.own base).Alike
      (e.message limit) (e.message limit) := by
    rw [hmessage]
    exact .value .rfl
  obtain ⟨hmatched, hsteps, -⟩ := Simulated.report h hpaired rfl
  exact ⟨hmatched, hsteps, Run.Extends.report limit e m⟩

/-- A session that has started has a new global frame, and has evaluated its prelude if it has one. A
prelude from a file was announced before. -/
theorem start_cases (h : start limit host prelude m = (.value s, m')) :
    s.global = m.store.frames.size ∧
      ((prelude.text? host = none ∧ m' = m.withStandard) ∨
        ∃ code m₁ v, prelude.text? host = some code ∧
          (m₁ = m.withStandard ∨
            ∃ path, Run.report limit (.loadingPrelude path) m.withStandard = (.value (), m₁)) ∧
          s.eval limit code m₁ = (.value v, m')) := by
  have hblank : blank m = (.value ⟨m.store.frames.size⟩, m.withStandard) := rfl
  rw [start, Run.bind_of_value _ hblank] at h
  cases prelude with
  | absent =>
    cases h
    exact ⟨rfl, Or.inl ⟨rfl, rfl⟩⟩
  | source code =>
    obtain ⟨v, m₁, heval, hpure⟩ := Run.bind_eq_value_iff.1 h
    cases hpure
    exact ⟨rfl, Or.inr ⟨code, m.withStandard, v, rfl, Or.inl rfl, heval⟩⟩
  | configured =>
    cases hpath : host.preludePath with
    | none =>
      simp only [hpath] at h
      cases h
      exact ⟨rfl, Or.inl ⟨by simp [Prelude.text?, hpath], rfl⟩⟩
    | some path =>
      simp only [hpath] at h
      obtain ⟨_, m₁, hreport, h⟩ := Run.bind_eq_value_iff.1 h
      obtain ⟨code, m₂, hread, h⟩ := Run.bind_eq_value_iff.1 h
      obtain ⟨v, m₃, heval, hpure⟩ := Run.bind_eq_value_iff.1 h
      cases hpure
      -- Reading the file leaves the machine as the report has left it.
      obtain rfl : m₁ = m₂ := congrArg Prod.snd hread
      have htext : host.readText path = .ok code :=
        Outcome.ofExcept_injective (congrArg Prod.fst hread)
      refine ⟨rfl, Or.inr ⟨code, m₁, v, ?_, Or.inr ⟨path, hreport⟩, heval⟩⟩
      simp [Prelude.text?, hpath, htext, Except.toOption]

/-- A session that has started has a global frame of its own, and its prelude was one more source. -/
theorem start_advance (h : start limit host prelude m = (.value s, m')) :
    s.global = m.store.frames.size ∧ Advance m.store.frames.size m.withStandard m' := by
  have hmatched := matched_withStandard m
  obtain ⟨hglobal, ⟨-, rfl⟩ | ⟨code, m₁, v, -, hannounced, heval⟩⟩ := start_cases h
  · exact ⟨hglobal, .refl hmatched⟩
  · have hfirst : Advance m.store.frames.size m.withStandard m₁ := by
      rcases hannounced with rfl | ⟨path, hreport⟩
      · exact .refl hmatched
      · have hadvance : Advance m.store.frames.size m.withStandard
            (Run.report limit (.loadingPrelude path) m.withStandard).2 := report_advance hmatched rfl
        rwa [hreport] at hadvance
    have hown : ((Pairing.own m.store.frames.size).within m.withStandard.store).frame
        s.global s.global := by
      rw [hglobal]
      exact own_within (Nat.le_refl _) (Store.addFrame_fst_lt ..)
    have hsecond : Advance m.store.frames.size m₁ (eval limit s code m₁).2 :=
      eval_advance code hfirst.matched (hfirst.steps.le.frame hown)
    rw [heval] at hsecond
    exact ⟨hglobal, hfirst.trans hsecond⟩

end Session

/-! ## Rooted frames -/

/-- The outer link of a frame. -/
def Store.Outer (s : Store) (g o : FrameId) : Prop :=
  ∃ f, s.frame? g = some f ∧ f.outer = some o

namespace Store

variable {s : Store} {g o r : FrameId} {x : String}

/-- Outer links lead to older frames, so they never lead back. -/
theorem WellFormed.lt_of_outer (hs : s.WellFormed) (h : Relation.TransGen s.Outer g o) : o < g := by
  induction h with
  | single h =>
    obtain ⟨f, hf, ho⟩ := h
    exact hs.outer_lt hf ho
  | tail _ h ih =>
    obtain ⟨f, hf, ho⟩ := h
    exact Nat.lt_trans (hs.outer_lt hf ho) ih

/-- A name that is bound at the end of a chain is owned by some frame of it. -/
theorem resolves_of_leads (h : Relation.ReflTransGen s.Outer g r) {f : Frame}
    (hf : s.frame? r = some f) (hx : f.bindings.binds x = true) : ∃ j, Resolves s x g j := by
  induction h using Relation.ReflTransGen.head_induction_on with
  | refl => exact ⟨r, .here hf hx⟩
  | @head g o hstep _ ih =>
    obtain ⟨fg, hfg, ho⟩ := hstep
    cases hbinds : fg.bindings.binds x with
    | true => exact ⟨g, .here hfg hbinds⟩
    | false =>
      obtain ⟨j, hj⟩ := ih
      exact ⟨j, .outward hfg hbinds ho hj⟩

end Store

/-- In a machine that is matched with itself, the frames that are paired with themselves hold paired
values only. -/
theorem Matched.diagonal_frame {F : FrameId → Prop} {O : ObjectId → Prop}
    (h : Matched (Pairing.diagonal F O) m m) {i : FrameId} {f : Frame} (hi : F i)
    (hf : m.store.frame? i = some f) : f.Paired ((Pairing.diagonal F O).within m.store) f := by
  have hframes := h.frames ⟨rfl, hi⟩
  rw [hf] at hframes
  cases hframes with
  | some hpaired => exact hpaired

theorem Matched.diagonal_value {F : FrameId → Prop} {O : ObjectId → Prop}
    (h : Matched (Pairing.diagonal F O) m m) {i : FrameId} {f : Frame} {p : String × Value} (hi : F i)
    (hf : m.store.frame? i = some f) (hp : p ∈ f.bindings) :
    p.2.Paired ((Pairing.diagonal F O).within m.store) p.2 :=
  (List.forall₂_same.1 (h.diagonal_frame hi hf).bindings p hp).2

/-- Such values capture frames of the store. -/
theorem Value.Paired.within {F : FrameId → Prop} {O : ObjectId → Prop} {v w : Value}
    (h : v.Paired ((Pairing.diagonal F O).within m.store) w) : v.Within m.store.frames.size := by
  refine Value.within_iff.2 fun a ha => ?_
  obtain ⟨b, -, hlt⟩ := h.captured a ha
  exact hlt.resolve_left id

namespace Session.Advance

/-- A frame before `base` is as it was. -/
theorem frame?_of_lt (h : Advance base m m') {i : FrameId} (hi : i < base) :
    m'.store.frame? i = m.store.frame? i :=
  h.steps.untouched fun _ hib => absurd hib.2 (Nat.not_le.2 hi)

/-- The machine stays well-formed when a new session runs on it. -/
theorem wellFormed (hm : m.store.WellFormed)
    (h : Advance m.store.frames.size m.withStandard m') : m'.store.WellFormed where
  outer_lt := by
    intro i f o hf ho
    by_cases hi : m.store.frames.size ≤ i
    · exact (h.matched.outer_lt ⟨rfl, hi⟩ hf ho).resolve_left id
    · rw [h.frame?_of_lt (Nat.not_le.1 hi)] at hf
      exact hm.addStandard.outer_lt hf ho
  within := by
    intro i f p hf hp
    by_cases hi : m.store.frames.size ≤ i
    · exact (h.matched.diagonal_value hi hf hp).within
    · rw [h.frame?_of_lt (Nat.not_le.1 hi)] at hf
      exact (hm.addStandard.within hf hp).mono h.steps.frames_le

/-- From every frame of a new session the outer links lead to its global frame. -/
theorem leads (hm : m.store.WellFormed) (h : Advance m.store.frames.size m.withStandard m')
    (g : FrameId) (hg : m.store.frames.size ≤ g) (hlt : g < m'.store.frames.size) :
    Relation.ReflTransGen m'.store.Outer g m.store.frames.size := by
  -- Every frame but the global one has an outer frame, which is of the session and older.
  induction g using Nat.strongRecOn with
  | ind g ih =>
    by_cases hglobal : g = m.store.frames.size
    · rw [hglobal]
    · obtain ⟨f, hf⟩ := Store.exists_frame? hlt
      have hnew : m.withStandard.store.frame? g = none := by
        apply Array.getElem?_eq_none
        show m.withStandard.store.frames.size ≤ g
        rw [m.size_withStandard]
        exact Nat.lt_of_le_of_ne hg (Ne.symm hglobal)
      have houter : Option.Rel _ f.outer f.outer := (h.matched.diagonal_frame hg hf).outer
      cases ho : f.outer with
      | none => exact absurd ho (h.scopes.inner hf hnew)
      | some o =>
        rw [ho] at houter
        cases houter with
        | some hoo =>
          have hog : o < g := (h.wellFormed hm).outer_lt hf ho
          exact .head ⟨f, hf, ho⟩ (ih o hog hoo.1.2 (Nat.lt_trans hog hlt))

/-- The global frame of a new session has no outer frame and goes on binding every primitive. -/
theorem global (h : Advance m.store.frames.size m.withStandard m') :
    ∃ f, m'.store.frame? m.store.frames.size = some f ∧ f.outer = none ∧
      ∀ p : Primitive, f.bindings.binds p.name = true := by
  have hnew : m.withStandard.store.frame? m.store.frames.size =
      some ⟨Store.standardBindings m.store.frames.size, none⟩ := by
    rw [m.frame?_withStandard, if_pos rfl]
  obtain ⟨f, hf, houter, new, hnames, -⟩ := h.scopes.kept hnew
  refine ⟨f, hf, houter, fun p => ?_⟩
  have hp : p.name ∈ (Store.standardBindings m.store.frames.size).names := by
    simp only [Store.standardBindings, Bindings.names, List.map_map]
    exact List.mem_map.2 ⟨p, p.mem_all, rfl⟩
  rw [Bindings.binds_iff_mem_names, hnames]
  exact List.mem_append_left _ hp

end Session.Advance

/-- **Sessions keep the store well-formed.** Let a session be started on a machine with a well-formed
store, and let any calls be made on it, each of which may end in any way. In the store after them, outer
links lead to older frames and closures bound anywhere, at any depth, capture frames that are there;
every frame of the store before has kept its outer link, and all frames keep theirs in whatever calls
follow. No frame is outward of itself, and from every frame made since the session was started the outer
links lead to its global frame, which has none. Hence every search for a name from such a frame ends,
and a search for the name of a primitive has a value. -/
theorem Session.frames_rooted {limit : Nat} {host : Host} {prelude : Prelude} {s : Session}
    {m₀ m₁ : Machine} (hm₀ : m₀.store.WellFormed)
    (hstart : Session.start limit host prelude m₀ = (.value s, m₁)) (calls : List Session.Call) :
    (s.after calls m₁).store.WellFormed ∧
    (∀ g f, m₀.store.frame? g = some f →
      ∃ f', (s.after calls m₁).store.frame? g = some f' ∧ f'.outer = f.outer) ∧
    (∀ more g f, (s.after calls m₁).store.frame? g = some f →
      ∃ f', (s.after (calls ++ more) m₁).store.frame? g = some f' ∧ f'.outer = f.outer) ∧
    (∀ g, ¬ Relation.TransGen (s.after calls m₁).store.Outer g g) ∧
    (∃ f, (s.after calls m₁).store.frame? s.global = some f ∧ f.outer = none) ∧
    ∀ g, m₀.store.frames.size ≤ g → g < (s.after calls m₁).store.frames.size →
      Relation.ReflTransGen (s.after calls m₁).store.Outer g s.global ∧
      (∀ x, (∃ j, Resolves (s.after calls m₁).store x g j) ∨
        Unresolved (s.after calls m₁).store x g) ∧
      ∀ p : Primitive, ∃ v,
        Scope.lookup g p.name (s.after calls m₁) = (.value v, s.after calls m₁) := by
  obtain ⟨hglobal, hstarted⟩ := Session.start_advance hstart
  have hown : ((Pairing.own m₀.store.frames.size).within m₁.store).frame s.global s.global := by
    rw [hglobal]
    exact hstarted.steps.le.frame (own_within (Nat.le_refl _) (Store.addFrame_fst_lt ..))
  have hafter := Session.after_advance calls hstarted.matched hown
  have hall := hstarted.trans hafter
  have hwell := hall.wellFormed hm₀
  obtain ⟨f, hf, houter, hbinds⟩ := hall.global
  refine ⟨hwell, ?_, ?_, ?_, ?_, ?_⟩
  · intro g f hf
    refine ⟨f, ?_, rfl⟩
    have hlt := Store.lt_size_of_frame? hf
    rw [hall.frame?_of_lt hlt, m₀.frame?_withStandard, if_neg (Nat.ne_of_lt hlt), hf]
  · intro more g f hf
    have hmore := Session.after_advance more hafter.matched (hafter.steps.le.frame hown)
    obtain ⟨f', hf', houter', -⟩ := hmore.scopes.kept hf
    refine ⟨f', ?_, houter'⟩
    rw [Session.after, List.foldl_append]
    exact hf'
  · intro g hg
    exact Nat.lt_irrefl g (hwell.lt_of_outer hg)
  · exact ⟨f, hglobal ▸ hf, houter⟩
  · intro g hg hlt
    have hleads := hall.leads hm₀ g hg hlt
    refine ⟨hglobal ▸ hleads, fun x => hwell.resolves_or_unresolved x g hlt, fun p => ?_⟩
    obtain ⟨j, hj⟩ := Store.resolves_of_leads hleads hf (hbinds p)
    obtain ⟨v, hv⟩ := hj.exists_get?
    have hlookup : (s.after calls m₁).store.lookup? g p.name = some v := by
      rw [Store.lookup?, hwell.find?_of_resolves hj]
      exact hv
    exact ⟨v, by rw [Scope.lookup_apply, hlookup]⟩

/-- On a new machine the global frame of the session is the first. Its calls define a closure that makes
closures, reach the depth limit, and fail to be read. -/
theorem Session.frames_rooted_calls :
    let calls : List Session.Call := [.run 20 "(define f (lambda (x) (lambda () x)))",
      .eval 2 "(f (f 1))", .run 9 "(f 2) (f))"]
    let m := (Session.mk 0).after calls (Machine.new .warning).withStandard
    m.store.WellFormed ∧ (∀ g, ¬ Relation.TransGen m.store.Outer g g) ∧
      ∀ g, g < m.store.frames.size → Relation.ReflTransGen m.store.Outer g 0 := by
  intro calls m
  have hstart : Session.start 20 ⟨[], []⟩ .absent (Machine.new .warning) =
      (.value ⟨0⟩, (Machine.new .warning).withStandard) := rfl
  obtain ⟨hwell, -, -, hacyclic, -, hrooted⟩ :=
    Session.frames_rooted Store.WellFormed.empty hstart calls
  exact ⟨hwell, hacyclic, fun g hg => (hrooted g (Nat.zero_le g) hg).1⟩

end Lisplet
