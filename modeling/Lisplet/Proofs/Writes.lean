import Lisplet.Proofs.Sessions
import Lisplet.Proofs.Tasks

/-!
# Which tasks write to a frame

A binding of a frame that is there already changes only when some task of the evaluation writes it: a
definition, which writes the frame that it is evaluated in and no other, or an assignment, which writes
the frame that owns the name. A change is followed back through the tree of tasks to the task that made
it. The body of a closure is evaluated in a frame that the call makes, and so is all that is started on
the way; hence no definition of a call reaches a frame that was there before.

Main definitions: `Run.Changes`, `Task.Writes`, `Task.frame?`. Main statements: `Task.change_cases`,
`Task.change_origin`, `Starts.frame_of_chain`, `evaluate_scopes`.
-/

namespace Lisplet

/-! ## Changes of runs in sequence -/

/-- Whether the run binds the name in the frame, or changes its value there. -/
def Run.Changes {α : Type} (x : Run α) (m : Machine) (g : FrameId) (y : String) : Prop :=
  (x m).2.store.get? g y ≠ m.store.get? g y

namespace Run

variable {α β : Type} {x : Run α} {f : α → Run β} {m : Machine} {g : FrameId} {y : String}

/-- A run that keeps the frames changes nothing in them. -/
theorem not_changes_of_frames (h : (x m).2.store.frames = m.store.frames) : ¬ x.Changes m g y := by
  intro hchanges
  apply hchanges
  simp only [Store.get?, Store.bindings, Store.frame?, h]

theorem not_changes_lift (o : Outcome α) : ¬ (Run.lift o).Changes m g y :=
  not_changes_of_frames rfl

theorem not_changes_report (limit : Nat) (e : Event) : ¬ (Run.report limit e).Changes m g y := by
  apply not_changes_of_frames
  unfold Run.report
  split
  · split <;> rfl
  · rfl

/-- In a sequence the first run changes the binding, or the second one does when the first has a value. -/
theorem changes_of_bind (h : (x >>= f).Changes m g y) :
    x.Changes m g y ∨ ∃ a m₁, x m = (.value a, m₁) ∧ (f a).Changes m₁ g y := by
  rcases hx : x m with ⟨o, m₁⟩
  by_cases hsame : m₁.store.get? g y = m.store.get? g y
  · cases o with
    | value a =>
      rw [Run.Changes, Run.bind_of_value f hx, ← hsame] at h
      exact Or.inr ⟨a, m₁, rfl, h⟩
    | fault e =>
      rw [Run.Changes, Run.bind_of_fault f hx] at h
      exact absurd hsame h
    | exhausted =>
      rw [Run.Changes, Run.bind_of_exhausted f hx] at h
      exact absurd hsame h
  · left
    rw [Run.Changes, hx]
    exact hsame

theorem not_changes_faultShowing (limit : Nat) (v : Value) (make : String → Fault) :
    ¬ (Run.faultShowing limit v make : Run α).Changes m g y := by
  intro h
  rcases changes_of_bind h with hshow | ⟨_, _, -, hfault⟩
  · exact not_changes_lift _ hshow
  · exact not_changes_lift _ hfault

end Run

variable {limit : Nat} {ev : Evaluator} {i j g : FrameId} {x y : String} {m m' : Machine}

/-- Among forms that are evaluated in turn, one changes the binding, when those before it have values. -/
theorem evalAll_changes {forms : List Value} (h : (evalAll ev i forms).Changes m g y) :
    ∃ before form after vs m₁, forms = before ++ form :: after ∧
      evalAll ev i before m = (.value vs, m₁) ∧ (ev form i).Changes m₁ g y := by
  induction forms generalizing m with
  | nil => exact absurd h (Run.not_changes_lift _)
  | cons first forms ih =>
    rcases Run.changes_of_bind h with hfirst | ⟨v, m₁, hv, h⟩
    · exact ⟨[], first, forms, [], m, rfl, rfl, hfirst⟩
    · rcases Run.changes_of_bind h with hrest | ⟨_, _, -, hpure⟩
      · obtain ⟨before, form, after, vs, m₂, rfl, hvs, hform⟩ := ih hrest
        refine ⟨first :: before, form, after, v :: vs, m₂, rfl, ?_, hform⟩
        rw [evalAll, Run.bind_of_value _ hv, Run.bind_of_value _ hvs, Run.pure_apply]
      · exact absurd hpure (Run.not_changes_lift _)

theorem evalLast_changes {last : Value} {forms : List Value}
    (h : (evalLast ev i last forms).Changes m g y) :
    ∃ before form after v m₁, forms = before ++ form :: after ∧
      evalLast ev i last before m = (.value v, m₁) ∧ (ev form i).Changes m₁ g y := by
  induction forms generalizing last m with
  | nil => exact absurd h (Run.not_changes_lift _)
  | cons first forms ih =>
    rcases Run.changes_of_bind h with hfirst | ⟨v, m₁, hv, h⟩
    · exact ⟨[], first, forms, last, m, rfl, rfl, hfirst⟩
    · obtain ⟨before, form, after, w, m₂, rfl, hw, hform⟩ := ih h
      refine ⟨first :: before, form, after, w, m₂, rfl, ?_, hform⟩
      rw [evalLast, Run.bind_of_value _ hv, hw]

/-- The forms of a source are reported first, which changes nothing. -/
theorem evalForms_changes {last : Value} {forms : List Value}
    (h : (evalForms limit i last forms).Changes m g y) :
    ∃ before form after v m₁ m₂, forms = before ++ form :: after ∧
      evalForms limit i last before m = (.value v, m₁) ∧
      Run.report limit (.readForm form) m₁ = (.value (), m₂) ∧
      (eval limit form i).Changes m₂ g y := by
  induction forms generalizing last m with
  | nil => exact absurd h (Run.not_changes_lift _)
  | cons first forms ih =>
    rcases Run.changes_of_bind h with hreport | ⟨_, m₁, hreport, h⟩
    · exact absurd hreport (Run.not_changes_report _ _)
    · rcases Run.changes_of_bind h with hfirst | ⟨v, m₂, hv, h⟩
      · exact ⟨[], first, forms, last, m, m₁, rfl, rfl, hreport, hfirst⟩
      · obtain ⟨before, form, after, w, m₃, m₄, rfl, hw, hreport', hform⟩ := ih h
        refine ⟨first :: before, form, after, w, m₃, m₄, rfl, ?_, hreport', hform⟩
        rw [evalForms, Run.bind_of_value _ hreport, Run.bind_of_value _ hv, hw]

/-! ## The task that made a change -/

/-- The task writes the name in the frame itself. -/
inductive Task.Writes : Task → Machine → FrameId → String → Prop where
  /-- A definition writes the frame in which it is evaluated. -/
  | define {limit : Nat} {x : String} {form v : Value} {i : FrameId} {m m₁ : Machine} :
      eval limit form i m = (.value v, m₁) →
      Writes (.rule limit .define [.symbol x, form] i) m i x
  /-- An assignment writes the frame that owns the name once the operand has a value. -/
  | assign {limit : Nat} {x : String} {form v : Value} {i g : FrameId} {m m₁ : Machine} :
      eval limit form i m = (.value v, m₁) → m₁.store.find? i x = some g →
      Writes (.rule limit .assign [.symbol x, form] i) m g x

namespace Task

/-- A task that changes a binding writes it itself, or it starts a task that changes the binding. -/
def Changes (t : Task) (m : Machine) (g : FrameId) (y : String) : Prop :=
  t.Writes m g y ∨ ∃ t' m₁, Starts (t, m) (t', m₁) ∧ t'.run.Changes m₁ g y

theorem source_changes {text : String} (h : (evalSource limit text i).Changes m g y) :
    (Task.source limit text i).Changes m g y := by
  rcases Run.changes_of_bind h with hforms | ⟨v, m₁, -, hend⟩
  · obtain ⟨before, form, after, v, m₁, m₂, hread, hbefore, hreport, hform⟩ := evalForms_changes hforms
    exact Or.inr ⟨_, _, .read hread hbefore hreport, hform⟩
  · split at hend
    · exact absurd hend (Run.not_changes_lift _)
    · exact absurd hend (Run.not_changes_lift _)

theorem first_changes {text : String} (h : (evalFirst limit text i).Changes m g y) :
    (Task.first limit text i).Changes m g y := by
  rcases Run.changes_of_bind h with hparse | ⟨form, m₁, hparse, hform⟩
  · rcases Run.changes_of_bind hparse with hread | ⟨_, _, -, hrest⟩
    · exact absurd hread (Run.not_changes_lift _)
    · rcases Run.changes_of_bind hrest with hreport | ⟨_, _, -, hpure⟩
      · exact absurd hreport (Run.not_changes_report _ _)
      · exact absurd hpure (Run.not_changes_lift _)
  · exact Or.inr ⟨_, _, .readFirst hparse, hform⟩

theorem rule_changes {k : Keyword} {ops : List Value}
    (h : (k.run limit (eval limit) ops i).Changes m g y) : (Task.rule limit k ops i).Changes m g y := by
  cases k.shape ops with
  | misused htakes =>
    rw [Keyword.run_of_not_takes htakes] at h
    exact absurd h (Run.not_changes_lift _)
  | quote => exact absurd h (Run.not_changes_lift _)
  | @cond test yes no hno =>
    rw [Keyword.run, runCond_eq hno] at h
    rcases Run.changes_of_bind h with htest | ⟨v, m₁, hv, h⟩
    · exact Or.inr ⟨_, _, .test hno, htest⟩
    · split at h
      · next hholds => exact Or.inr ⟨_, _, .yes hno hv hholds, h⟩
      · next hfails =>
        rcases no with _ | ⟨other, _ | ⟨_, _⟩⟩
        · exact absurd h (Run.not_changes_lift _)
        · exact Or.inr ⟨_, _, .no hv (Bool.eq_false_iff.2 hfails), h⟩
        · simp at hno
  | @assign x form =>
    rcases Run.changes_of_bind h with hform | ⟨v, m₁, hv, h⟩
    · exact Or.inr ⟨_, _, .bound (Or.inl rfl), hform⟩
    · rcases Run.changes_of_bind h with hassign | ⟨_, _, -, hpure⟩
      · rw [Run.Changes, Scope.assign_apply] at hassign
        split at hassign
        · next j hfind =>
          -- Only the name that is assigned to changes, and only in the frame that owns it.
          rw [Store.get?_bind] at hassign
          split at hassign
          · next heq =>
            obtain ⟨rfl, rfl⟩ := heq
            exact Or.inl (.assign hv hfind)
          · exact absurd rfl hassign
        · exact absurd rfl hassign
      · exact absurd hpure (Run.not_changes_lift _)
  | @define x form =>
    rcases Run.changes_of_bind h with hform | ⟨v, m₁, hv, h⟩
    · exact Or.inr ⟨_, _, .bound (Or.inr rfl), hform⟩
    · rcases Run.changes_of_bind h with hdefine | ⟨_, _, -, hpure⟩
      · rw [Run.Changes, Scope.define, Run.update_apply, Store.get?_bind] at hdefine
        split at hdefine
        · next heq =>
          obtain ⟨rfl, rfl⟩ := heq
          exact Or.inl (.define hv)
        · exact absurd rfl hdefine
      · exact absurd hpure (Run.not_changes_lift _)
  | badTarget hk ht =>
    rw [run_of_badTarget hk ht] at h
    exact absurd h (Run.not_changes_faultShowing _ _ _)
  | lambda =>
    rw [Keyword.run, Keyword.runLambda_symbols] at h
    rcases Run.changes_of_bind h with hreport | ⟨_, m₁, -, hclosure⟩
    · exact absurd hreport (Run.not_changes_report _ _)
    · exact absurd hclosure (Run.not_changes_of_frames rfl)
  | badParameters hparams =>
    rw [Keyword.run, runLambda_of_bad hparams] at h
    exact absurd h (Run.not_changes_faultShowing _ _ _)
  | begin =>
    obtain ⟨before, form, after, v, m₁, rfl, hv, hform⟩ := evalLast_changes h
    exact Or.inr ⟨_, _, .begin hv, hform⟩

/-- A frame that is there keeps its bindings when the frame of a call is made. -/
theorem not_changes_makeFor (hg : g < m.store.frames.size) (formals args : List Value)
    (captured : FrameId) : ¬ (Scope.makeFor limit formals args captured).Changes m g y := by
  rcases Scope.makeFor_cases limit formals args captured m with ⟨names, -, hmake⟩ | ⟨o, hmake, -⟩
  · rw [Run.Changes, hmake, Store.get?_addFrame, if_neg (Nat.ne_of_lt hg)]
    exact not_not_intro rfl
  · rw [Run.Changes, hmake]
    exact not_not_intro rfl

theorem call_changes {v : Value} {args : List Value} (hg : g < m.store.frames.size)
    (h : (apply limit (eval limit) v args).Changes m g y) : (Task.call limit v args).Changes m g y := by
  cases v with
  | primitive p home =>
    rcases Run.changes_of_bind h with hobject | ⟨_, _, -, hcall⟩
    · exact absurd hobject (Run.not_changes_of_frames rfl)
    · exact absurd hcall (Run.not_changes_lift _)
  | closure id formals body captured =>
    rcases Run.changes_of_bind h with hframe | ⟨j, m₁, hframe, h⟩
    · exact absurd hframe (not_changes_makeFor hg formals args captured)
    · rcases Run.changes_of_bind h with hreport | ⟨_, m₂, hreport, hbody⟩
      · exact absurd hreport (Run.not_changes_report _ _)
      · exact Or.inr ⟨_, _, .body hframe hreport, hbody⟩
  | _ => exact absurd h (Run.not_changes_faultShowing _ _ _)

theorem form_changes {form : Value} (h : (eval limit form i).Changes m g y) :
    (Task.form limit form i).Changes m g y := by
  cases limit with
  | zero =>
    rw [eval] at h
    exact absurd h (Run.not_changes_lift _)
  | succ limit =>
    rw [eval] at h
    cases form with
    | symbol x =>
      rw [Run.Changes, evalStep, Scope.lookup_apply] at h
      exact absurd rfl h
    | list id items =>
      cases items with
      | nil => exact absurd h (Run.not_changes_faultShowing _ _ _)
      | cons head ops =>
        cases hk : head.keyword? with
        | some k =>
          simp only [evalStep, hk] at h
          rcases Run.changes_of_bind h with hreport | ⟨_, m₁, hreport, hrule⟩
          · exact absurd hreport (Run.not_changes_report _ _)
          · exact Or.inr ⟨_, _, .special hk hreport, hrule⟩
        | none =>
          simp only [evalStep, hk] at h
          rcases Run.changes_of_bind h with hhead | ⟨v, m₁, hv, h⟩
          · have hitems : head :: ops = [] ++ head :: ops := rfl
            exact Or.inr ⟨_, _, .item hk hitems rfl, hhead⟩
          · rcases Run.changes_of_bind h with hops | ⟨args, m₂, hargs, hcall⟩
            · obtain ⟨before, form, after, vs, m₂, rfl, hvs, hform⟩ := evalAll_changes hops
              have hall : evalAll (eval (limit - 1)) i (head :: before) m = (.value (v :: vs), m₂) := by
                rw [evalAll, Run.bind_of_value _ hv, Run.bind_of_value _ hvs, Run.pure_apply]
              exact Or.inr ⟨_, _, .item hk rfl hall, hform⟩
            · have hall : evalAll (eval (limit - 1)) i (head :: ops) m = (.value (v :: args), m₂) := by
                rw [evalAll, Run.bind_of_value _ hv, Run.bind_of_value _ hargs, Run.pure_apply]
              exact Or.inr ⟨_, _, .call hk hall, hcall⟩
    | _ => exact absurd h (Run.not_changes_lift _)

/-- A change of a frame that is there was made by the task itself or by one that it starts. -/
theorem change_cases {t : Task} (hg : g < m.store.frames.size) (h : t.run.Changes m g y) :
    t.Changes m g y := by
  cases t with
  | source limit text i => exact source_changes h
  | first limit text i => exact first_changes h
  | form limit form i => exact form_changes h
  | rule limit k ops i => exact rule_changes h
  | call limit v args => exact call_changes hg h

end Task

/-! ## The frames of a tree of tasks -/

/-- The frame in which a task evaluates. A call has none before it makes one. -/
def Task.frame? : Task → Option FrameId
  | .source _ _ i | .first _ _ i | .form _ _ i | .rule _ _ _ i => some i
  | .call .. => none

theorem Store.Extends.size_le {P : FrameId → String → Prop} {s s' : Store} (h : s.Extends P s') :
    s.frames.size ≤ s'.frames.size := by
  by_contra hlt
  obtain ⟨f, hf⟩ : ∃ f, s.frame? s'.frames.size = some f :=
    ⟨_, Array.getElem?_eq_getElem (Nat.not_le.1 hlt)⟩
  obtain ⟨f', hf', -⟩ := h.kept hf
  exact Nat.lt_irrefl _ (Store.lt_size_of_frame? hf')

theorem Run.Extends.size_le {α : Type} {P : FrameId → String → Prop} {x : Run α} {o : Outcome α}
    (h : x.Extends P) (hx : x m = (o, m')) : m.store.frames.size ≤ m'.store.frames.size := by
  have hextends := h m
  rw [hx] at hextends
  exact hextends.size_le

theorem parseFirst_extends (limit : Nat) (text : String) :
    (parseFirst limit text).Extends fun _ _ => True :=
  (Run.Extends.lift _).bind fun _ => (Run.Extends.report _ _).bind fun _ => .pure _

namespace Starts

variable {t t' : Task × Machine}

/-- There are never fewer frames when a task is started than when its parent was. -/
theorem size_le (h : Starts t t') : t.2.store.frames.size ≤ t'.2.store.frames.size := by
  have heval : ∀ n form i, (eval n form i).Extends fun _ _ => True := fun n form i =>
    (eval_extends n form i).mono fun _ _ _ => trivial
  have hlog : ∀ n e, (Run.report n e).Extends fun _ _ => True := Run.Extends.report
  cases h with
  | read hread hbefore hreport =>
    have hforms := (evalForms_extends _ _ _).size_le hbefore
    exact hforms.trans ((hlog _ _).size_le hreport)
  | readFirst hparse =>
    exact (parseFirst_extends _ _).size_le hparse
  | special hk hreport =>
    exact (hlog _ _).size_le hreport
  | item hk hitems hbefore => exact (evalAll_extends fun form _ => heval _ form _).size_le hbefore
  | call hk hall => exact (evalAll_extends fun form _ => heval _ form _).size_le hall
  | test hno => exact Nat.le_refl _
  | yes hno htest hholds => exact (heval _ _ _).size_le htest
  | no htest hfails => exact (heval _ _ _).size_le htest
  | bound hk => exact Nat.le_refl _
  | begin hbefore => exact (evalLast_extends fun form _ => heval _ form _).size_le hbefore
  | @body _ _ _ args _ captured _ m _ _ hframe hreport =>
    obtain ⟨names, -, -, rfl⟩ := Scope.makeFor_eq_value hframe
    have hadded := (Store.Extends.addFrame (P := fun _ _ => True) m.store
      (Bindings.ofPairs (names.zip args)) captured).size_le
    exact hadded.trans ((hlog _ _).size_le hreport)

/-- A task evaluates in the frame of the task that started it, unless that is a call: then it evaluates
in the frame that comes after all that were there. -/
theorem frame_cases (h : Starts t t') (hj : t'.1.frame? = some j) :
    t.1.frame? = some j ∨ t.1.frame? = none ∧ j = t.2.store.frames.size := by
  cases h with
  | body hframe hreport =>
    obtain ⟨names, -, rfl, -⟩ := Scope.makeFor_eq_value hframe
    exact Or.inr ⟨rfl, (Option.some.inj hj).symm⟩
  | call hk hall => cases hj
  | _ => exact Or.inl hj

/-- Everything that a task leads to is evaluated in the frame of the task, or in one that was not there
when the task was started. -/
theorem frame_of_chain (h : Relation.ReflTransGen Starts t t') (hj : t'.1.frame? = some j) :
    t.1.frame? = some j ∨ t.2.store.frames.size ≤ j := by
  induction h using Relation.ReflTransGen.head_induction_on with
  | refl => exact Or.inl hj
  | head hstarts _ ih =>
    rcases ih with hframe | hnew
    · rcases hstarts.frame_cases hframe with hsame | ⟨-, rfl⟩
      · exact Or.inl hsame
      · exact Or.inr (Nat.le_refl _)
    · exact Or.inr (hstarts.size_le.trans hnew)

end Starts

/-- Every change of a frame that is there was written by some task of the tree. -/
theorem Task.change_origin {t : Task} (hg : g < m.store.frames.size) (h : t.run.Changes m g y) :
    ∃ t' m₁, Relation.ReflTransGen Starts (t, m) (t', m₁) ∧ t'.Writes m₁ g y := by
  -- The tree ends, so the search for the task that wrote does.
  induction hn : t.height using Nat.strongRecOn generalizing t m with
  | ind n ih =>
    rcases Task.change_cases hg h with hwrites | ⟨t', m₁, hstarts, hchanges⟩
    · exact ⟨t, m, .refl, hwrites⟩
    · have hg₁ : g < m₁.store.frames.size := Nat.lt_of_lt_of_le hg hstarts.size_le
      obtain ⟨t'', m₂, hchain, hwrites⟩ := ih _ (hn ▸ hstarts.height_lt) hg₁ hchanges rfl
      exact ⟨t'', m₂, .head hstarts hchain, hwrites⟩

/-! ## Scope discipline -/

/-- The task comes to an assignment to the name that is owned by the frame. -/
def Task.Assigns (t : Task) (m : Machine) (g : FrameId) (x : String) : Prop :=
  ∃ n e j v m₁ m₂, Relation.ReflTransGen Starts (t, m) (.rule n .assign [.symbol x, e] j, m₁) ∧
    eval n e j m₁ = (.value v, m₂) ∧ m₂.store.find? j x = some g

/-- A value in a frame that is there changes by an assignment, or by a definition that is evaluated in
that very frame, and then it is the frame of the task. -/
theorem Task.assigns_or_defines {t : Task} (hg : g < m.store.frames.size) (h : t.run.Changes m g x) :
    t.Assigns m g x ∨ t.frame? = some g ∧
      ∃ n e m₁, Relation.ReflTransGen Starts (t, m) (.rule n .define [.symbol x, e] g, m₁) := by
  obtain ⟨t', m₁, hchain, hwrites⟩ := Task.change_origin hg h
  cases hwrites with
  | assign hform hfind => exact Or.inl ⟨_, _, _, _, _, _, hchain, hform, hfind⟩
  | define hform =>
    rcases Starts.frame_of_chain hchain rfl with hframe | hnew
    · exact Or.inr ⟨hframe, _, _, _, hchain⟩
    · exact absurd hg (Nat.not_lt.2 hnew)

/-- Apart from what its operand does, a definition changes no frame but the one it is evaluated in. -/
theorem Keyword.frame?_define (n : Nat) (x : String) (e : Value) (hg : g ≠ j) (m : Machine) :
    (Keyword.define.run n (eval n) [.symbol x, e] j m).2.store.frame? g =
      (eval n e j m).2.store.frame? g := by
  rcases hform : eval n e j m with ⟨o, m₁⟩
  cases o with
  | value v =>
    have hrun : Keyword.define.run n (eval n) [.symbol x, e] j m =
        (.value .noValue, { m₁ with store := m₁.store.bind j x v }) := by
      rw [Keyword.run, Keyword.runDefine, Run.bind_of_value _ hform]
      rfl
    rw [hrun, Store.frame?_bind]
    simp [Ne.symm hg]
  | fault f => rw [Keyword.run, Keyword.runDefine, Run.bind_of_fault _ hform]
  | exhausted => rw [Keyword.run, Keyword.runDefine, Run.bind_of_exhausted _ hform]

/-- **Scope discipline.** Let a form be evaluated in any frame of any machine, and let that end in any
way. Every frame is still there, inside the same outer frame. Every frame but the one of the form binds
the same names in the same order; that one binds its names in the same order and behind them only
targets of `define` forms that occur in the form, outside quoted data and the bodies of `lambda` forms.
In particular nothing is ever unbound; an assignment changes the names of no frame; and whatever a
closure defines when it is called, the frames that were there before the call keep their names.

As to values: in a frame that was there, a name gets another value only by an assignment that found it in
that frame, or by a definition that was evaluated in the frame of the form. A definition writes no frame
but the one it is evaluated in. During the call of a closure all is evaluated in frames that were not
there before the call, so that no definition reaches those that were, and their values change by
assignments alone. -/
theorem evaluate_scopes (limit : Nat) (form : Value) (i : FrameId) (m : Machine) :
    (∀ g f, m.store.frame? g = some f → ∃ f',
      (evaluate limit form i m).2.store.frame? g = some f' ∧ f'.outer = f.outer ∧
      (g ≠ i → f'.bindings.names = f.bindings.names) ∧
      ∃ new, f'.bindings.names = f.bindings.names ++ new ∧ ∀ x ∈ new, x ∈ form.targets) ∧
    (∀ g x, (m.store.bindings g).binds x = true →
      ((evaluate limit form i m).2.store.bindings g).binds x = true) ∧
    (∀ x v g, ((Scope.assign i x v m).2.store.bindings g).names = (m.store.bindings g).names) ∧
    (∀ n k id formals body captured args g f, m.store.frame? g = some f → ∃ f',
      (apply n (eval k) (.closure id formals body captured) args m).2.store.frame? g = some f' ∧
      f'.outer = f.outer ∧ f'.bindings.names = f.bindings.names) ∧
    (∀ g x, g < m.store.frames.size →
      (evaluate limit form i m).2.store.get? g x ≠ m.store.get? g x →
      (Task.form limit form i).Assigns m g x ∨ g = i ∧ ∃ n e m₁,
        Relation.ReflTransGen Starts (.form limit form i, m) (.rule n .define [.symbol x, e] i, m₁)) ∧
    (∀ n x e j g, g ≠ j → (Keyword.define.run n (eval n) [.symbol x, e] j m).2.store.frame? g =
      (eval n e j m).2.store.frame? g) ∧
    ∀ n id formals body captured args,
      (∀ t m₁ j, Relation.ReflTransGen Starts
          (.call n (.closure id formals body captured) args, m) (t, m₁) →
        t.frame? = some j → m.store.frames.size ≤ j) ∧
      ∀ g x, g < m.store.frames.size →
        (apply n (eval n) (.closure id formals body captured) args m).2.store.get? g x ≠
          m.store.get? g x →
        (Task.call n (.closure id formals body captured) args).Assigns m g x := by
  have heval := (eval_extends limit form i).guard .evaluating m
  refine ⟨?_, fun g x hx => heval.binds hx, fun x v g => Scope.names_assign i x v m g, ?_, ?_,
    fun n x e j g hg => Keyword.frame?_define n x e hg m, ?_⟩
  · intro g f hf
    obtain ⟨f', hf', houter, new, hnames, hnew⟩ := heval.kept hf
    refine ⟨f', hf', houter, ?_, new, hnames, fun x hx => (hnew x hx).2⟩
    intro hg
    have hnil : new = [] := List.eq_nil_iff_forall_not_mem.2 fun x hx => hg (hnew x hx).1
    rw [hnames, hnil, List.append_nil]
  · intro n k id formals body captured args g f hf
    have happly : m.store.Extends (fun _ _ => False)
        (apply n (eval k) (.closure id formals body captured) args m).2.store :=
      apply_extends (eval_extends k) _ args m
    exact happly.same_names hf fun _ hP => hP
  · intro g x hg hchanges
    rcases Task.assigns_or_defines (t := .form limit form i) hg hchanges with
      hassigns | ⟨hframe, n, e, m₁, hchain⟩
    · exact Or.inl hassigns
    · obtain rfl : i = g := Option.some.inj hframe
      exact Or.inr ⟨rfl, n, e, m₁, hchain⟩
  · intro n id formals body captured args
    constructor
    · intro t m₁ j hchain hj
      exact (Starts.frame_of_chain hchain hj).resolve_left nofun
    · intro g x hg hchanges
      rcases Task.assigns_or_defines (t := .call n (.closure id formals body captured) args) hg
        hchanges with hassigns | ⟨hframe, -⟩
      · exact hassigns
      · cases hframe

/-- `(begin (define x 5) (set! z 2))`. -/
private def scopesBody : Value :=
  .literal [.symbol "begin", .literal [.symbol "define", .symbol "x", .int 5],
    .literal [.symbol "set!", .symbol "z", .int 2]]

/-- A frame with `x`, with `z` and with a procedure `f` of no parameters, which defines the one and assigns
to the other. -/
private def scopesMachine : Machine :=
  ⟨⟨#[⟨[("x", .int 1), ("z", .int 1), ("f", .closure 0 [] scopesBody 0)], none⟩], 1⟩,
    Log.new .warning⟩

/-- `(begin (define y (f)) (quote (define w 1)))`. -/
private def scopesForm : Value :=
  .literal [.symbol "begin", .literal [.symbol "define", .symbol "y", .literal [.symbol "f"]],
    .literal [.symbol "quote", .literal [.symbol "define", .symbol "w", .int 1]]]

/-- The form defines `y` and nothing else, although it quotes a definition of `w` and calls a closure that
defines `x`. The closure has an `x` of its own from then on, and the outer one keeps its value. The outer
`z` gets another value, and so the call comes to an assignment to it. -/
theorem evaluate_scopes_call :
    scopesForm.targets = ["y"] ∧
    (∃ f', (evaluate 20 scopesForm 0 scopesMachine).2.store.frame? 0 = some f' ∧ f'.outer = none ∧
      ∃ new, f'.bindings.names = ["x", "z", "f"] ++ new ∧ ∀ x ∈ new, x ∈ ["y"]) ∧
    (evaluate 20 scopesForm 0 scopesMachine).2.store.get? 0 "x" = some (.int 1) ∧
    (evaluate 20 scopesForm 0 scopesMachine).2.store.get? 1 "x" = some (.int 5) ∧
    (Task.call 17 (.closure 0 [] scopesBody 0) []).Assigns scopesMachine 0 "z" ∧
    ∀ t m₁ j, Relation.ReflTransGen Starts
        (.call 17 (.closure 0 [] scopesBody 0) [], scopesMachine) (t, m₁) →
      t.frame? = some j → 1 ≤ j := by
  have htargets : scopesForm.targets = ["y"] := by decide
  obtain ⟨hframes, -, -, -, -, -, hcalls⟩ := evaluate_scopes 20 scopesForm 0 scopesMachine
  obtain ⟨f', hf', houter, -, new, hnames, hnew⟩ := hframes 0 _ rfl
  obtain ⟨hnewFrames, hassigns⟩ := hcalls 17 0 [] scopesBody 0 []
  have hchanges : (apply 17 (eval 17) (.closure 0 [] scopesBody 0) [] scopesMachine).2.store.get? 0 "z" ≠
      scopesMachine.store.get? 0 "z" := by
    have hafter : (apply 17 (eval 17) (.closure 0 [] scopesBody 0) [] scopesMachine).2.store.get? 0 "z" =
        some (.int 2) := by with_unfolding_all rfl
    have hbefore : scopesMachine.store.get? 0 "z" = some (.int 1) := rfl
    simp [hafter, hbefore]
  exact ⟨htargets, ⟨f', hf', houter, new, hnames, htargets ▸ hnew⟩, by with_unfolding_all rfl,
    by with_unfolding_all rfl, hassigns 0 "z" (by decide) hchanges, hnewFrames⟩

end Lisplet
