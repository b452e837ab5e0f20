import Lisplet.Proofs.Answers
import Lisplet.Proofs.Provenance

/-!
# What can fail

A session answers a source with a text or fails with one of seven classes of faults, all of the
language. There is one more way to fail: integers of more than 4300 digits can be computed, but neither
read nor written. So a token that starts with such an integer cannot be read, and a value that shows one
can neither be printed nor stand in the message of a fault. Nothing else goes wrong: parameters and the
names in frames are symbols, so no other value is ever looked up or bound, and no host text is printed.

Main definitions: `Value.Displays`, `Task.ReadsToken`, `Task.Reason`, `Session.Reaches`. Main statement:
`Session.failures_accounted`.
-/

namespace Lisplet

/-! ## Integers that cannot be written -/

/-- The integer has more digits than are read or written. -/
def IsLong (n : Int) : Prop :=
  4300 < (Nat.toDigits 10 n.natAbs).length

/-- The texts of the value show the integer: it is the value, or it stands in an item of a list or in a
parameter of a closure. -/
inductive Value.Displays (n : Int) : Value → Prop where
  | self : Displays n (.int n)
  | item {id : Option ObjectId} {items : List Value} {v : Value} :
      v ∈ items → Displays n v → Displays n (.list id items)
  | parameter {id : ObjectId} {formals : List Value} {body v : Value} {i : FrameId} :
      v ∈ formals → Displays n v → Displays n (.closure id formals body i)

/-- The value shows an integer that cannot be written. -/
def Value.DisplaysLong (v : Value) : Prop :=
  ∃ n, v.Displays n ∧ IsLong n

/-- The fault of a text is that an integer cannot be written. -/
def Unwritable (vs : List Value) (f : Fault) : Prop :=
  f = .longInteger ∧ ∃ v ∈ vs, v.DisplaysLong

theorem Unwritable.imp {vs ws : List Value} {f : Fault} (h : Unwritable vs f)
    (hsub : ∀ v ∈ vs, v.DisplaysLong → ∃ w ∈ ws, w.DisplaysLong) : Unwritable ws f := by
  obtain ⟨hf, v, hv, hlong⟩ := h
  exact ⟨hf, hsub v hv hlong⟩

theorem Unwritable.list {id : Option ObjectId} {items : List Value} {f : Fault}
    (h : Unwritable items f) : Unwritable [.list id items] f := by
  refine h.imp fun v hv hlong => ⟨_, List.mem_singleton_self _, ?_⟩
  obtain ⟨n, hn, hlong⟩ := hlong
  exact ⟨n, .item hv hn, hlong⟩

theorem Unwritable.closure {id : ObjectId} {formals : List Value} {body : Value} {i : FrameId}
    {f : Fault} (h : Unwritable formals f) : Unwritable [.closure id formals body i] f := by
  refine h.imp fun v hv hlong => ⟨_, List.mem_singleton_self _, ?_⟩
  obtain ⟨n, hn, hlong⟩ := hlong
  exact ⟨n, .parameter hv hn, hlong⟩

theorem Unwritable.head {v : Value} {vs : List Value} {f : Fault} (h : Unwritable [v] f) :
    Unwritable (v :: vs) f :=
  h.imp fun w hw hlong => ⟨w, by rw [List.mem_singleton.1 hw]; exact List.mem_cons_self .., hlong⟩

theorem Unwritable.tail {v : Value} {vs : List Value} {f : Fault} (h : Unwritable vs f) :
    Unwritable (v :: vs) f :=
  h.imp fun w hw hlong => ⟨w, List.mem_cons_of_mem _ hw, hlong⟩

theorem writeInt_fault {n : Int} {f : Fault} (h : writeInt n = .fault f) :
    Unwritable [.int n] f := by
  by_cases hshort : (Nat.toDigits 10 n.natAbs).length ≤ 4300
  · rw [writeInt_eq hshort] at h
    cases h
  · refine ⟨?_, _, List.mem_singleton_self _, n, .self, Nat.not_le.1 hshort⟩
    unfold writeInt at h
    split at h
    · cases h
    · cases h
      rfl

mutual

/-- Only an integer that cannot be written keeps a value from being described. -/
theorem Value.describe_fault {limit : Nat} {f : Fault} (v : Value) (h : v.describe limit = .fault f) :
    Unwritable [v] f := by
  cases v with
  | int n =>
    rw [Value.describe] at h
    rcases Outcome.bind_eq_fault h with h | ⟨_, -, h⟩
    · exact writeInt_fault h
    · cases h
  | list id items =>
    cases limit with
    | zero => cases h
    | succ limit =>
      rcases Outcome.bind_eq_fault h with h | ⟨_, -, h⟩
      · exact (describeAll_fault items h).list
      · cases h
  | closure id formals body i =>
    cases limit with
    | zero => cases h
    | succ limit =>
      rcases Outcome.bind_eq_fault h with h | ⟨_, -, h⟩
      · exact (titleAll_fault formals h).closure
      · cases h
  | noValue | bool | symbol | primitive | text => cases h

theorem describeAll_fault {limit : Nat} {f : Fault} (vs : List Value)
    (h : describeAll limit vs = .fault f) : Unwritable vs f := by
  match vs with
  | [] => cases h
  | v :: vs =>
    rw [describeAll] at h
    rcases Outcome.bind_eq_fault h with h | ⟨_, -, h⟩
    · exact (v.describe_fault h).head
    · rcases Outcome.bind_eq_fault h with h | ⟨_, -, h⟩
      · exact (describeAll_fault vs h).tail
      · cases h

theorem titleAll_fault {limit : Nat} {f : Fault} (vs : List Value)
    (h : titleAll limit vs = .fault f) : Unwritable vs f := by
  match vs with
  | [] => cases h
  | v :: vs =>
    rw [titleAll_cons] at h
    rcases Outcome.bind_eq_fault h with h | ⟨_, -, h⟩
    · -- Symbols and host texts are their own titles; all others are described.
      unfold Value.title at h
      cases htext : v.ownText? with
      | some s =>
        rw [htext] at h
        cases h
      | none =>
        rw [htext] at h
        exact (v.describe_fault h).head
    · rcases Outcome.bind_eq_fault h with h | ⟨_, -, h⟩
      · exact (titleAll_fault vs h).tail
      · cases h

end

mutual

/-- Only an integer that cannot be written keeps a value from being printed. -/
theorem Value.print_fault {limit : Nat} {f : Fault} (v : Value) (h : v.print limit = .fault f) :
    Unwritable [v] f := by
  cases v with
  | int n => exact writeInt_fault h
  | list id items =>
    cases limit with
    | zero => cases h
    | succ limit =>
      rcases Outcome.bind_eq_fault h with h | ⟨_, -, h⟩
      · exact (printAll_fault items h).list
      · cases h
  | closure id formals body i =>
    cases limit with
    | zero => cases h
    | succ limit =>
      rcases Outcome.bind_eq_fault h with h | ⟨_, -, h⟩
      · exact (titleAll_fault formals h).closure
      · cases h
  | noValue | bool | symbol | primitive | text => cases h

theorem printAll_fault {limit : Nat} {f : Fault} (vs : List Value)
    (h : printAll limit vs = .fault f) : Unwritable vs f := by
  match vs with
  | [] => cases h
  | v :: vs =>
    rw [printAll] at h
    rcases Outcome.bind_eq_fault h with h | ⟨_, -, h⟩
    · exact (v.print_fault h).head
    · rcases Outcome.bind_eq_fault h with h | ⟨_, -, h⟩
      · exact (printAll_fault vs h).tail
      · cases h

end

/-- A value that has no printed text nests too deep, or shows an integer that cannot be written. -/
theorem Value.printed_error {limit : Nat} {v : Value} {f : Fault} (h : v.printed limit = .error f) :
    f = .tooDeep .printing ∨ (f = .longInteger ∧ v.DisplaysLong) := by
  unfold Value.printed at h
  cases hprint : v.print limit with
  | value text =>
    rw [hprint] at h
    cases h
  | fault e =>
    rw [hprint] at h
    cases h
    obtain ⟨hf, w, hw, hlong⟩ := v.print_fault hprint
    rw [List.mem_singleton.1 hw] at hlong
    exact Or.inr ⟨hf, hlong⟩
  | exhausted =>
    rw [hprint] at h
    cases h
    exact Or.inl rfl

/-! ## Tokens that cannot be read -/

namespace TokenStream

/-- Reading one form from the stream takes the token. -/
def Takes (limit : Nat) (s : TokenStream) (t : String) : Prop :=
  ∃ taken, s.remaining = taken ++ (s.read limit).2.remaining ∧ t ∈ taken

/-- Reading forms from the stream, one after the other, takes the token. -/
inductive Consumes (limit : Nat) : TokenStream → String → Prop where
  | now {s : TokenStream} {t : String} : s.peek.2.Takes limit t → Consumes limit s t
  | later {s s' : TokenStream} {v : Value} {t : String} :
      s.peek.2.read limit = (.ok v, s') → Consumes limit s' t → Consumes limit s t

/-- A form that cannot be read ends too soon, begins with a closing parenthesis, or has a token that
cannot be read, which is the last one taken. -/
theorem parseFrom_fault {limit : Nat} {pending : List (List Value)} {s s' : TokenStream} {f : Fault}
    (h : s.parseFrom limit pending = (.fault f, s')) :
    f.kind = .malformed ∨ ∃ before t n, s.remaining = before ++ t :: s'.remaining ∧ Overlong t n ∧
      f = .longNumeral n := by
  generalize hts : s.remaining = ts at *
  induction ts generalizing pending s with
  | nil =>
    rw [parseFrom_nil hts] at h
    cases h
    exact Or.inl rfl
  | cons t r ih =>
    obtain ⟨-, hnext⟩ := advance_of_remaining_cons hts
    -- What happens after this token happens in the rest of the stream.
    have hrest : ∀ pending, s.advance.2.parseFrom limit pending = (.fault f, s') →
        f.kind = .malformed ∨ ∃ before u n, t :: r = before ++ u :: s'.remaining ∧ Overlong u n ∧
          f = .longNumeral n := by
      intro pending h
      rcases ih h hnext with hkind | ⟨before, u, n, hr, hlong, hf⟩
      · exact Or.inl hkind
      · exact Or.inr ⟨t :: before, u, n, by rw [hr, List.cons_append], hlong, hf⟩
    have haccept : ∀ pending v, accept limit pending v s.advance.2 = (.fault f, s') →
        f.kind = .malformed ∨ ∃ before u n, t :: r = before ++ u :: s'.remaining ∧ Overlong u n ∧
          f = .longNumeral n := by
      intro pending v h
      cases pending with
      | nil => cases h
      | cons items rest => exact hrest _ h
    rw [parseFrom_cons hts] at h
    split at h
    · cases pending with
      | nil =>
        cases h
        exact Or.inl rfl
      | cons items rest => exact haccept rest _ h
    · split at h
      · cases h
      · split at h
        · exact hrest _ h
        · split at h
          · next e hatom =>
            cases h
            obtain ⟨n, hlong, rfl⟩ := atom_eq_error_iff.1 hatom
            exact Or.inr ⟨[], t, n, by rw [hnext, List.nil_append], hlong, rfl⟩
          · exact haccept pending _ h

/-- What keeps a form from being read: it is malformed, it nests too deep, or a token that was taken
starts with an integer of too many digits. -/
def Unreadable (takes : String → Prop) (f : Fault) : Prop :=
  f.kind = .malformed ∨ f.kind = .tooDeep ∨ ∃ t n, takes t ∧ Overlong t n ∧ f = .longNumeral n

theorem Unreadable.imp {P Q : String → Prop} {f : Fault} (h : Unreadable P f) (hPQ : ∀ t, P t → Q t) :
    Unreadable Q f := by
  rcases h with hkind | hkind | ⟨t, n, htakes, hlong, hf⟩
  · exact Or.inl hkind
  · exact Or.inr (Or.inl hkind)
  · exact Or.inr (Or.inr ⟨t, n, hPQ t htakes, hlong, hf⟩)

theorem read_error {limit : Nat} {s s' : TokenStream} {f : Fault} (h : s.read limit = (.error f, s')) :
    Unreadable (s.Takes limit) f := by
  rcases hparse : s.parseFrom limit [] with ⟨o, s₁⟩
  have hread : s.read limit = (o.toExcept .reading, s₁) := by simp only [read, parse, hparse]
  obtain ⟨ho, rfl⟩ := Prod.mk.inj (hread.symm.trans h)
  cases o with
  | value v => cases ho
  | fault e =>
    cases ho
    rcases parseFrom_fault hparse with hkind | ⟨before, t, n, hsplit, hlong, hf⟩
    · exact Or.inl hkind
    · refine Or.inr (Or.inr ⟨t, n, ⟨before ++ [t], ?_, by simp⟩, hlong, hf⟩)
      rw [hsplit, hread, List.append_assoc, List.singleton_append]
  | exhausted =>
    cases ho
    exact Or.inr (Or.inl rfl)

theorem readAll_failure {limit : Nat} {s : TokenStream} {f : Fault}
    (h : (s.readAll limit).failure = some f) : Unreadable (s.Consumes limit) f := by
  fun_induction readAll limit s with
  | case1 s hnone => cases h
  | case2 s t hsome e s' hread =>
    cases h
    exact (read_error hread).imp fun _ => .now
  | case3 s t hsome v s' hread hlen later ih => exact (ih h).imp fun _ => .later hread

end TokenStream

/-- Evaluating the source takes the token from its text. -/
def Task.ReadsToken : Task → String → Prop
  | .source limit text _, t => (TokenStream.ofSource text).Consumes limit t
  | .first limit text _, t => (TokenStream.ofSource text).Takes limit t
  | _, _ => False

/-! ## Reasons to fail -/

/-- The classes of faults that programs can raise. -/
def FaultKind.raised : List FaultKind :=
  [.malformed, .unbound, .arity, .notCallable, .wrongType, .divisionByZero, .tooDeep]

/-- The reasons for which a task fails, or for which its value cannot be printed. -/
inductive Task.Reason (t : Task) (m : Machine) : Fault → Prop where
  | raised {f : Fault} : f.kind ∈ FaultKind.raised → Reason t m f
  /-- A token that is read starts with an integer of too many digits. -/
  | token {u : String} {n : Nat} : t.ReadsToken u → Overlong u n → Reason t m (.longNumeral n)
  /-- The value, which is to be printed, shows an integer of too many digits. -/
  | printed {v : Value} {m₁ : Machine} :
      t.run m = (.value v, m₁) → v.DisplaysLong → Reason t m .longInteger
  /-- On the way a task fails, and the value that its message is to show shows such an integer. -/
  | rendered {t' : Task} {m₁ : Machine} {v : Value} {make : String → Fault} :
      Relation.ReflTransGen Starts (t, m) (t', m₁) → t'.Complains v make → v.DisplaysLong →
      Reason t m .longInteger

/-- A fault that shows a value is made from its text, or the value shows an integer that cannot be
written. -/
theorem Shows.cases {v : Value} {make : String → Fault} {f : Fault} (h : Shows v make f) :
    (∃ text, f = make text) ∨ (f = .longInteger ∧ v.DisplaysLong) := by
  cases h with
  | shown => exact Or.inl ⟨_, rfl⟩
  | unshowable hsettles =>
    obtain ⟨enough, hfault⟩ := hsettles
    obtain ⟨hf, w, hw, hlong⟩ := v.describe_fault (hfault enough (Nat.le_refl _))
    rw [List.mem_singleton.1 hw] at hlong
    exact Or.inr ⟨hf, hlong⟩

/-- Faults that show values are among those that programs raise. -/
theorem Task.Complains.kind {t : Task} {v : Value} {make : String → Fault} (h : t.Complains v make)
    (text : String) : (make text).kind ∈ FaultKind.raised := by
  cases h with
  | operand _ hrejects => cases hrejects <;> simp [Fault.kind, FaultKind.raised]
  | _ => simp [Fault.kind, FaultKind.raised]

/-- Only the first task of a tree reads tokens. -/
theorem Task.ReadsToken.of_chain {t t' : Task} {m m' : Machine} {u : String}
    (hchain : Relation.ReflTransGen Starts (t, m) (t', m')) (h : t'.ReadsToken u) :
    t.ReadsToken u := by
  rcases Relation.ReflTransGen.cases_tail hchain with heq | ⟨_, -, hstarts⟩
  · cases heq
    exact h
  · cases hstarts <;> cases h

/-! ## Programs that were read -/

/-- What programs work with: forms that were read, closures with symbols for parameters and a form for
a body, and no host texts, in the frames from a certain one on. -/
def Provenance.programs (base : FrameId) : Provenance where
  code := IsForm
  closure formals body i := (∃ names, formals = symbols names) ∧ IsForm body ∧ base ≤ i
  symbol _ := True
  text _ := False
  frame i := base ≤ i

section Programs

variable {base : FrameId}

theorem IsTree.from_programs {v : Value} (h : IsForm v) : v.From (Provenance.programs base) :=
  h.from fun _ _ => trivial

theorem Provenance.programs_closed (base : FrameId) : (Provenance.programs base).Closed where
  atom h _ := h.from_programs
  item h _ := by
    cases h with
    | list hitems => exact hitems
  operand h _ _ := by
    cases h with
    | list hitems => exact (List.forall_mem_cons.1 hitems).2
  quote h := by
    cases h with
    | list hitems => exact (hitems _ (by simp)).from_programs
  lambda h hi := by
    cases h with
    | list hitems => exact ⟨⟨_, rfl⟩, .bodyOf trivial fun form hform => hitems form (by simp_all), hi⟩
  body h := h.2.1
  parameter _ _ := trivial
  captured h := h.2.2

/-- No host text is part of a value. -/
theorem Value.From.not_occurs_text {v : Value} (h : v.From (Provenance.programs base)) (s : String) :
    ¬ (Value.text s).Occurs v := by
  intro hoccurs
  have htext : (Value.text s).From (Provenance.programs base) := by
    refine h.of_occurs ?_ hoccurs
    rintro _ body i ⟨⟨names, rfl⟩, hbody, -⟩
    refine ⟨fun v hv => ?_, hbody.from_programs⟩
    obtain ⟨x, -, rfl⟩ := List.mem_map.1 hv
    exact .symbol trivial
  cases htext with
  | text h => exact h

/-- There is a reason for every fault that a task of a program raises. -/
theorem Task.Raises.reason {t t' : Task} {m m₁ : Machine} {f : Fault} (h : t'.Raises m₁ f)
    (hchain : Relation.ReflTransGen Starts (t, m) (t', m₁))
    (hfrom : t'.From (Provenance.programs base) m₁) : t.Reason m f := by
  have hshows : ∀ v make, t'.Complains v make → Shows v make f → t.Reason m f := by
    intro v make hcomplains hshows
    rcases hshows.cases with ⟨text, rfl⟩ | ⟨rfl, hlong⟩
    · exact .raised (hcomplains.kind text)
    · exact .rendered hchain hcomplains hlong
  have hunread : TokenStream.Unreadable t'.ReadsToken f → t.Reason m f := by
    rintro (hkind | hkind | ⟨u, n, hreads, hlong, rfl⟩)
    · exact .raised (by simp [hkind, FaultKind.raised])
    · exact .raised (by simp [hkind, FaultKind.raised])
    · exact .token (.of_chain hchain hreads) hlong
  -- Of all that a task can raise, only a list for a parameter is of no class that programs raise.
  cases h with
  | unread hfailure => exact hunread (TokenStream.readAll_failure hfailure)
  | unreadFirst hread => exact hunread (TokenStream.read_error (Prod.ext hread rfl))
  | complaint hcomplains hmessage => exact hshows _ _ hcomplains hmessage
  | listAsKey hmem hlist =>
    -- The parameters of a closure of the program are symbols.
    cases hfrom.1 with
    | closure hclosure =>
      obtain ⟨names, rfl⟩ := hclosure.1
      obtain ⟨x, -, rfl⟩ := List.mem_map.1 hmem
      cases hlist
  | primitive hraises =>
    cases hraises with
    | operand hmem hrejects hmessage => exact hshows _ _ (.operand hmem hrejects) hmessage
    | _ => exact .raised (by simp [Fault.kind, FaultKind.raised])
  | _ => exact .raised (by simp [Fault.kind, FaultKind.raised])

/-- Evaluating sources and first forms keeps to what programs work with. -/
theorem Task.source_from (limit : Nat) (text : String) {i : FrameId} (hi : base ≤ i) (m : Machine) :
    (Task.source limit text i).From (Provenance.programs base) m :=
  ⟨fun form hread => (TokenStream.readAll_isForm form hread.mem).1, hi⟩

theorem Task.first_from (limit : Nat) (text : String) {i : FrameId} (hi : base ≤ i) (m : Machine) :
    (Task.first limit text i).From (Provenance.programs base) m := by
  refine ⟨fun form hread => ?_, hi⟩
  obtain ⟨_, _, _, hstarts⟩ := hread
  cases hstarts with
  | readFirst hparse =>
    obtain ⟨v, m₁, hread, hrest⟩ := Run.bind_eq_value_iff.1 hparse
    obtain ⟨_, m₂, -, hpure⟩ := Run.bind_eq_value_iff.1 hrest
    cases hpure
    have hform : readForm limit text = .ok form :=
      Outcome.ofExcept_injective (congrArg Prod.fst hread)
    exact (isForm_of_readForm hform).1

end Programs

/-! ## Sessions -/

/-- The machines that a session comes to from a machine by running sources in its global frame, whole
or only their first form, each time under a depth limit of its own and with any outcome. -/
inductive Session.Reaches (s : Session) (m : Machine) : Machine → Prop where
  | refl : Reaches s m m
  | run {m₁ : Machine} (limit : Nat) (text : String) :
      Reaches s m m₁ → Reaches s m (s.run limit text m₁).2
  | runFirst {m₁ : Machine} (limit : Nat) (text : String) :
      Reaches s m m₁ → Reaches s m (runFirst limit text s.global m₁).2

theorem Session.Reaches.from {base : FrameId} {s : Session} {m m' : Machine} (h : s.Reaches m m')
    (hs : base ≤ s.global) (hm : m.store.From (Provenance.programs base)) :
    m'.store.From (Provenance.programs base) := by
  have hπ := Provenance.programs_closed base
  induction h with
  | refl => exact hm
  | @run m₁ limit text _ ih =>
    rw [Session.run_snd]
    exact (evalSource_derives hπ hs ih (Task.source_from limit text hs m₁).1).store
  | @runFirst m₁ limit text _ ih =>
    rw [Lisplet.runFirst, Run.bind_ofExcept_snd]
    exact (evalFirst_derives hπ hs ih (Task.first_from limit text hs m₁).1).store

/-- Running the first form of a source is never cut off either. -/
theorem runFirst_concludes (limit : Nat) (text : String) (i : FrameId) :
    (runFirst limit text i).Concludes := by
  refine .bind (.bind ?_ fun form => .guard .evaluating _) fun v => .ofExcept _
  intro m
  cases hread : readForm limit text with
  | error f => exact ⟨.error f, m, by rw [parseFirst, hread]; rfl⟩
  | ok form =>
    obtain ⟨log, hvalue⟩ := parseFirst_of_readForm hread m
    exact ⟨.ok form, _, hvalue⟩

/-- All that can come of running a task on a machine and printing its value. -/
structure Task.Accounted (t : Task) (m : Machine) (x : Run String) : Prop where
  /-- There is a text or a fault: no run is just cut off. -/
  answers : ∃ r m', x m = (Outcome.ofExcept r, m')
  /-- There is a reason for every fault. -/
  faults : ∀ f m', x m = (.fault f, m') → t.Reason m f
  /-- The value that is to be printed has no host text in it. -/
  printable : ∀ v m', t.run m = (.value v, m') → ∀ text, ¬ (Value.text text).Occurs v
  /-- Whatever closure is called on the way has symbols for parameters, so no frame is keyed by a list. -/
  keys : ∀ n id formals body i args m',
    Relation.ReflTransGen Starts (t, m) (.call n (.closure id formals body i) args, m') →
    ∃ names, formals = symbols names

/-- A task that keeps to what programs work with is accounted for. -/
theorem Task.From.accounted {base limit : Nat} {t : Task} {m : Machine}
    (ht : t.From (Provenance.programs base) m) (hm : m.store.From (Provenance.programs base))
    (hconcludes : (t.run >>= fun v => Run.ofExcept (v.printed limit)).Concludes)
    (hvalue : Derives (Provenance.programs base) (Value.From (Provenance.programs base)) (t.run m)) :
    t.Accounted m (t.run >>= fun v => Run.ofExcept (v.printed limit)) where
  answers := hconcludes m
  faults := by
    intro f m' h
    rcases Run.bind_eq_fault h with hrun | ⟨v, m₁, hrun, hprint⟩
    · -- The task that raised the fault works with what programs work with, like the first one.
      obtain ⟨t', m₁, hchain, hraises⟩ := Task.fault_origin hrun
      have hfrom := Task.From.of_chain (Provenance.programs_closed base) hchain hm ht
      exact hraises.reason hchain hfrom.2
    · have herror : v.printed limit = .error f :=
        Outcome.ofExcept_injective (congrArg Prod.fst hprint)
      rcases Value.printed_error herror with rfl | ⟨rfl, hlong⟩
      · exact .raised (by simp [Fault.kind, FaultKind.raised])
      · exact .printed hrun hlong
  printable := by
    intro v m' hrun text
    exact (hvalue.of_eq hrun).2.not_occurs_text text
  keys := by
    intro n id formals body i args m' hchain
    have hfrom := Task.From.of_chain (Provenance.programs_closed base) hchain hm ht
    cases hfrom.2.1 with
    | closure hclosure => exact hclosure.1

/-- **There is a reason for every failure.** Let a session be started on any machine, with any prelude,
and let any sources have been run in its global frame since, whole or only their first form, with any
outcomes. Then running one more source, or the first form of one, gives a text or fails. The fault is of
one of the seven classes that programs raise, unless an integer of more than 4300 digits is at fault: one
that a token starts with which is read, one that the value to be printed shows, or one that a value shows
which the message of a fault is to show. The value that is printed has no host text in it, and the
closures that are called have symbols for parameters. -/
theorem Session.failures_accounted {limit₀ : Nat} {host : Host} {prelude : Prelude} {s : Session}
    {m₀ m₁ m : Machine} (hstart : Session.start limit₀ host prelude m₀ = (.value s, m₁))
    (hreach : s.Reaches m₁ m) (limit : Nat) (text : String) :
    (Task.source limit text s.global).Accounted m (s.run limit text) ∧
      (Task.first limit text s.global).Accounted m (runFirst limit text s.global) := by
  let base := m₀.store.frames.size
  have hπ := Provenance.programs_closed base
  have hprelude : ∀ code, prelude.text? host = some code →
      ∀ form ∈ (readForms limit₀ code).forms, IsForm form :=
    fun _ _ form hform => (TokenStream.readAll_isForm form hform).1
  obtain ⟨hs, hm₁⟩ := Session.start_from hπ (fun _ => Iff.rfl) (fun _ => trivial) hprelude hstart
  have hm : m.store.From (Provenance.programs base) := hreach.from hs hm₁
  constructor
  · have ht := Task.source_from limit text hs m
    exact ht.accounted hm (Session.run_concludes limit s text) (evalSource_derives hπ hs hm ht.1)
  · have ht := Task.first_from limit text hs m
    exact ht.accounted hm (runFirst_concludes limit text s.global) (evalFirst_derives hπ hs hm ht.1)

/-- A closure is defined and applied to what its body does not take. -/
theorem Session.failures_accounted_defined :
    let s : Session := ⟨0⟩
    let m₁ := (Machine.new .warning).withStandard
    let m := (s.run 20 "(define f (lambda (x) (car x)))" m₁).2
    s.Reaches m₁ m ∧ (Task.source 20 "(f 1)" 0).Accounted m (s.run 20 "(f 1)") := by
  intro s m₁ m
  have hstart : Session.start 20 ⟨[], []⟩ .absent (Machine.new .warning) = (.value s, m₁) := rfl
  have hreach : s.Reaches m₁ m := .run 20 _ .refl
  exact ⟨hreach, (Session.failures_accounted hstart hreach 20 "(f 1)").1⟩

end Lisplet
