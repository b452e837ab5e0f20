import Lisplet.Proofs.Provenance

/-!
# Data never becomes code

A list can be a program and can be data, and nothing in a list tells which it is. Still the two never mix:
what a session evaluates is part of a form that it has read, or the body of a procedure that is written
in such a form, and every closure has its parameters and its body from there. A list that is put together
at run time, even if it looks like a program, is never evaluated. Nor can a run make up names: all symbols
in all values were read, or belong to the language.

Main definitions: `PartOf`, `FromLambda`, `KnownName`, `Evaluable`, `Traced`, `Session.HasRead`. Main
statement: `Session.code_as_read`.
-/

namespace Lisplet

/-! ## Parts of programs -/

/-- The values that are written in programs. No list in them was made at run time. -/
inductive Value.IsLiteral : Value → Prop where
  | int {n : Int} : IsLiteral (.int n)
  | symbol {x : String} : IsLiteral (.symbol x)
  | list {items : List Value} : (∀ v ∈ items, IsLiteral v) → IsLiteral (.literal items)

namespace Value

theorem Occurs.trans {u v w : Value} (huv : u.Occurs v) (hvw : v.Occurs w) : u.Occurs w := by
  induction hvw with
  | self => exact huv
  | item hmem _ ih => exact .item hmem ih
  | parameter hmem _ ih => exact .parameter hmem ih
  | body _ ih => exact .body ih

theorem IsLiteral.of_occurs {v w : Value} (h : v.IsLiteral) (hw : w.Occurs v) : w.IsLiteral := by
  induction hw with
  | self => exact h
  | item hmem _ ih =>
    cases h with
    | list hitems => exact ih (hitems _ hmem)
  | parameter => cases h
  | body => cases h

/-- No part of what is written in a program is a list that was made at run time. -/
theorem IsLiteral.not_occurs_made {v : Value} (h : v.IsLiteral) (id : ObjectId) (items : List Value) :
    ¬ (Value.list (some id) items).Occurs v := by
  intro hoccurs
  cases h.of_occurs hoccurs

end Value

/-- A form that is read has no identities, so it is as it was written. -/
theorem Value.Paired.isLiteral {v : Value} (hform : IsForm v)
    (h : v.Paired (.diagonal (fun _ => False) (fun _ => False)) v) : v.IsLiteral := by
  induction hform with
  | int => exact .int
  | symbol => exact .symbol
  | list _ ih =>
    cases h with
    | list hid hitems =>
      cases hid with
      | none => exact .list fun v hv => ih v hv (List.forall₂_same.1 (allPaired_iff.1 hitems) v hv)
      | some hid => exact hid.2.elim

theorem isLiteral_of_mem_readForms {limit : Nat} {source : String} {form : Value}
    (h : form ∈ (readForms limit source).forms) : form.IsLiteral := by
  have hpaired := (readForms_paired (κ := .diagonal (fun _ => False) (fun _ => False))
    (fun _ => rfl) limit source).1
  have hform := TokenStream.readAll_isForm form h
  exact (List.forall₂_same.1 (allPaired_iff.1 hpaired) form h).isLiteral hform.1

/-- A primitive makes lists with an identity only: one without is part of an argument. -/
theorem Primitive.call_literal {limit : Nat} {id : ObjectId} {p : Primitive} {args items : List Value}
    {v : Value} (h : p.call limit id args = .value v) (hitems : (Value.literal items).Occurs v) :
    ∃ a ∈ args, (Value.literal items).Occurs a := by
  refine Primitive.call_inherits (P := fun v => (Value.literal items).Occurs v →
    ∃ a ∈ args, (Value.literal items).Occurs a) ?_ ?_ ?_ ?_ ?_ h ?_ hitems
  · intro hoccurs
    cases hoccurs
  · intro b hoccurs
    cases hoccurs
  · intro n hoccurs
    cases hoccurs
  · intro id vs hlist w hw hoccurs
    exact hlist (.item hw hoccurs)
  · -- The new list itself has an identity, so the other one is part of an item.
    intro id vs hvs hoccurs
    cases hoccurs with
    | item hw hoccurs => exact hvs _ hw hoccurs
  · intro a ha hoccurs
    exact ⟨a, ha, hoccurs⟩

section Read

variable {read : Value → Prop} {base : FrameId}

/-- The value is part of a form that was read. -/
def PartOf (read : Value → Prop) (v : Value) : Prop :=
  ∃ form, read form ∧ v.Occurs form

/-- The parameters and the body are those of a procedure that is written in a form that was read. If one
form is written behind the parameters, it is the body; if there are several, the body is a `begin` of
them. -/
def FromLambda (read : Value → Prop) (formals : List Value) (body : Value) : Prop :=
  ∃ names form forms,
    PartOf read (.literal (.symbol "lambda" :: .literal (symbols names) :: form :: forms)) ∧
    formals = symbols names ∧
    (forms = [] ∧ body = form ∨ forms ≠ [] ∧ body = .literal (.symbol "begin" :: form :: forms))

/-- The name belongs to the language or to a form that was read. -/
def KnownName (read : Value → Prop) (x : String) : Prop :=
  (∃ p : Primitive, x = p.name) ∨ (∃ k : Keyword, x = k.name) ∨ PartOf read (.symbol x)

/-- What may be evaluated: parts of forms that were read, and the bodies of procedures written there. -/
def Evaluable (read : Value → Prop) (v : Value) : Prop :=
  PartOf read v ∨ ∃ formals, FromLambda read formals v

/-- All closures in the value are procedures that were read, and all its symbols are known. -/
structure Traced (read : Value → Prop) (v : Value) : Prop where
  closures : ∀ id formals body i, (Value.closure id formals body i).Occurs v →
    FromLambda read formals body
  symbols : ∀ x, (Value.symbol x).Occurs v → KnownName read x

/-! ## The provenance of programs -/

theorem PartOf.item {id : Option ObjectId} {items : List Value} {v : Value}
    (h : PartOf read (.list id items)) (hv : v ∈ items) : PartOf read v := by
  obtain ⟨form, hform, hoccurs⟩ := h
  have hpart : v.Occurs (.list id items) := .item hv .self
  exact ⟨form, hform, hpart.trans hoccurs⟩

theorem PartOf.isLiteral (hread : ∀ form, read form → form.IsLiteral) {v : Value}
    (h : PartOf read v) : v.IsLiteral := by
  obtain ⟨form, hform, hoccurs⟩ := h
  exact (hread form hform).of_occurs hoccurs

/-- The body of a procedure is a part itself, or it is a sequence of parts. -/
theorem FromLambda.body_cases {formals : List Value} {body : Value}
    (h : FromLambda read formals body) : PartOf read body ∨
      ∃ forms, body = .literal (.symbol "begin" :: forms) ∧ ∀ form ∈ forms, PartOf read form := by
  obtain ⟨names, form, forms, hpart, -, hbody⟩ := h
  have hforms : ∀ e ∈ form :: forms, PartOf read e :=
    fun e he => hpart.item (List.mem_cons_of_mem _ (List.mem_cons_of_mem _ he))
  rcases hbody with ⟨-, rfl⟩ | ⟨-, rfl⟩
  · exact Or.inl (hforms body (List.mem_cons_self ..))
  · exact Or.inr ⟨form :: forms, rfl, hforms⟩

theorem FromLambda.of_part {names : List String} {form : Value} {forms : List Value}
    (h : PartOf read (.literal (.symbol "lambda" :: .literal (symbols names) :: form :: forms))) :
    FromLambda read (symbols names) (Value.bodyOf (form :: forms)) := by
  refine ⟨names, form, forms, h, rfl, ?_⟩
  cases forms with
  | nil => exact Or.inl ⟨rfl, rfl⟩
  | cons next forms => exact Or.inr ⟨List.cons_ne_nil next forms, rfl⟩

theorem Evaluable.cases {v : Value} (h : Evaluable read v) : PartOf read v ∨
    ∃ forms, v = .literal (.symbol "begin" :: forms) ∧ ∀ form ∈ forms, PartOf read form := by
  rcases h with hpart | ⟨_, hlambda⟩
  · exact Or.inl hpart
  · exact hlambda.body_cases

theorem Evaluable.isLiteral (hread : ∀ form, read form → form.IsLiteral) {v : Value}
    (h : Evaluable read v) : v.IsLiteral := by
  rcases h.cases with hpart | ⟨forms, rfl, hforms⟩
  · exact hpart.isLiteral hread
  · exact .list (List.forall_mem_cons.2 ⟨.symbol, fun e he => (hforms e he).isLiteral hread⟩)

/-- What a session works with that has read certain forms, in the frames from a certain one on. -/
def Provenance.reading (read : Value → Prop) (base : FrameId) : Provenance where
  code := Evaluable read
  closure formals body i := FromLambda read formals body ∧ base ≤ i
  symbol := KnownName read
  text _ := False
  frame i := base ≤ i

theorem Value.IsLiteral.from_reading {v : Value} (hliteral : v.IsLiteral) (h : PartOf read v) :
    v.From (Provenance.reading read base) := by
  induction hliteral with
  | int => exact .int
  | symbol => exact .symbol (Or.inr (Or.inr h))
  | list _ ih => exact .list fun v hv => ih v hv (h.item hv)

/-- The parameters of a procedure that was read are symbols that were read with it. -/
theorem FromLambda.formals_known {formals : List Value} {body : Value}
    (h : FromLambda read formals body) : ∀ v ∈ formals, ∃ x, v = .symbol x ∧ KnownName read x := by
  obtain ⟨names, form, forms, hpart, rfl, -⟩ := h
  have hparams : PartOf read (.literal (symbols names)) := hpart.item (by simp)
  intro v hv
  obtain ⟨x, -, rfl⟩ := List.mem_map.1 hv
  exact ⟨x, rfl, Or.inr (Or.inr (hparams.item hv))⟩

/-- Evaluation never turns data into code. -/
theorem Provenance.reading_closed (hread : ∀ form, read form → form.IsLiteral) (base : FrameId) :
    (Provenance.reading read base).Closed where
  atom h hlist := by
    rcases Evaluable.cases h with hpart | ⟨forms, rfl, -⟩
    · exact (hpart.isLiteral hread).from_reading hpart
    · cases hlist
  item h hk v hv := by
    rcases Evaluable.cases h with hpart | ⟨forms, heq, -⟩
    · exact Or.inl (hpart.item hv)
    · -- The body of a procedure that is no part itself starts with a keyword.
      cases heq
      cases hk
  operand {id k ops} h _ _ v hv := by
    rcases Evaluable.cases h with hpart | ⟨forms, heq, hforms⟩
    · exact Or.inl (hpart.item (List.mem_cons_of_mem _ hv))
    · obtain ⟨-, -, rfl⟩ : id = none ∧ k.name = "begin" ∧ ops = forms := by
        simpa using heq
      exact Or.inl (hforms v hv)
  quote {id v} h := by
    rcases Evaluable.cases h with hpart | ⟨forms, heq, -⟩
    · have hv : PartOf read v := hpart.item (by simp)
      exact (hv.isLiteral hread).from_reading hv
    · simp [Keyword.name] at heq
  lambda {id id' names form forms i} h hi := by
    rcases Evaluable.cases h with hpart | ⟨forms, heq, -⟩
    · -- Neither the form nor its list of parameters was made at run time.
      have hparams : PartOf read (.list id' (symbols names)) := hpart.item (by simp)
      obtain rfl : id = none := by
        cases hpart.isLiteral hread
        rfl
      obtain rfl : id' = none := by
        cases hparams.isLiteral hread
        rfl
      exact ⟨.of_part hpart, hi⟩
    · simp [Keyword.name] at heq
  body h := Or.inr ⟨_, h.1⟩
  parameter h hx := by
    obtain ⟨_, heq, hknown⟩ := h.1.formals_known _ (List.mem_map_of_mem hx)
    cases heq
    exact hknown
  captured h := h.2

/-- What keeps to the provenance is traced to what was read. -/
theorem Value.From.traced (hread : ∀ form, read form → form.IsLiteral) {v : Value}
    (h : v.From (Provenance.reading read base)) : Traced read v := by
  have hparts : ∀ formals body i, (Provenance.reading read base).closure formals body i →
      (∀ v ∈ formals, v.From (Provenance.reading read base)) ∧
        body.From (Provenance.reading read base) := by
    rintro formals body i ⟨hlambda, -⟩
    constructor
    · intro v hv
      obtain ⟨x, rfl, hknown⟩ := hlambda.formals_known v hv
      exact .symbol hknown
    · rcases hlambda.body_cases with hbody | ⟨forms, rfl, hforms⟩
      · exact (hbody.isLiteral hread).from_reading hbody
      · refine .list (List.forall_mem_cons.2 ⟨.symbol (Or.inr (Or.inl ⟨.begin, rfl⟩)), ?_⟩)
        exact fun e he => ((hforms e he).isLiteral hread).from_reading (hforms e he)
  constructor
  · intro id formals body i hoccurs
    cases h.of_occurs hparts hoccurs with
    | closure hclosure => exact hclosure.1
  · intro x hoccurs
    exact Value.from_symbol_iff.1 (h.of_occurs hparts hoccurs)

end Read

/-! ## Sessions -/

namespace Session

variable {limit : Nat} {host : Host} {prelude : Prelude} {s : Session} {m : Machine}

/-- The task that a call sets. -/
def Call.task (s : Session) : Call → Task
  | .eval limit source | .run limit source => .source limit source s.global

theorem Call.perform_eq (c : Call) (s : Session) (m : Machine) :
    c.perform s m = ((c.task s).run m).2 := by
  cases c with
  | eval limit source => rfl
  | run limit source => exact Session.run_snd ..

/-- The forms that are read in the course of calls, the first of them on the given machine. -/
def ReadBy (s : Session) : List Call → Machine → Value → Prop
  | [], _, _ => False
  | c :: calls, m, form => (c.task s).Reads m form ∨ s.ReadBy calls (c.perform s m) form

theorem readBy_append (calls more : List Call) (m : Machine) (form : Value) :
    s.ReadBy (calls ++ more) m form ↔
      s.ReadBy calls m form ∨ s.ReadBy more (s.after calls m) form := by
  induction calls generalizing m with
  | nil => simp [ReadBy, after]
  | cons c calls ih =>
    simp only [List.cons_append, ReadBy, after, List.foldl_cons, or_assoc]
    rw [ih]
    rfl

/-- A session has read the forms of its prelude and those read in its calls so far. -/
def HasRead (limit : Nat) (host : Host) (prelude : Prelude) (s : Session) (m : Machine)
    (calls : List Call) (form : Value) : Prop :=
  (∃ code, prelude.text? host = some code ∧ form ∈ (readForms limit code).forms) ∨
    s.ReadBy calls m form

/-- What is read in calls is a form of a source. -/
theorem ReadBy.mem {calls : List Call} {form : Value} (h : s.ReadBy calls m form) :
    ∃ limit source, form ∈ (readForms limit source).forms := by
  induction calls generalizing m with
  | nil => cases h
  | cons c calls ih =>
    rcases h with hfirst | hlater
    · cases c <;> exact ⟨_, _, hfirst.mem⟩
    · exact ih hlater

theorem HasRead.isLiteral {calls : List Call} {form : Value}
    (h : HasRead limit host prelude s m calls form) : form.IsLiteral := by
  rcases h with ⟨code, -, hmem⟩ | hcalls
  · exact isLiteral_of_mem_readForms hmem
  · obtain ⟨_, _, hmem⟩ := hcalls.mem
    exact isLiteral_of_mem_readForms hmem

theorem Call.task_from {π : Provenance} (c : Call) (hs : π.frame s.global)
    (hread : ∀ form, (c.task s).Reads m form → π.code form) : (c.task s).From π m := by
  cases c <;> exact ⟨hread, hs⟩

theorem Call.derives {π : Provenance} (hπ : π.Closed) (c : Call) (h : m.store.From π)
    (ht : (c.task s).From π m) : Derives π (Value.From π) ((c.task s).run m) := by
  cases c <;> exact evalSource_derives hπ ht.2 h ht.1

/-- Calls keep to a provenance to which all forms belong that they read. -/
theorem after_from {π : Provenance} (hπ : π.Closed) (hs : π.frame s.global) {calls : List Call}
    (h : m.store.From π) (hread : ∀ form, s.ReadBy calls m form → π.code form) :
    (s.after calls m).store.From π := by
  induction calls generalizing m with
  | nil => exact h
  | cons c calls ih =>
    have ht : (c.task s).From π m := c.task_from hs fun form hform => hread form (Or.inl hform)
    have hfirst : (c.perform s m).store.From π := by
      rw [Call.perform_eq]
      exact (c.derives hπ h ht).store
    exact ih hfirst fun form hform => hread form (Or.inr hform)

theorem HasRead.closed (limit : Nat) (host : Host) (prelude : Prelude) (s : Session) (m : Machine)
    (calls : List Call) (base : FrameId) :
    (Provenance.reading (HasRead limit host prelude s m calls) base).Closed :=
  Provenance.reading_closed (fun _ => HasRead.isLiteral) base

/-- The prelude and the calls keep to the forms that these and any further calls read. -/
theorem start_after_from {m₁ : Machine} (h : start limit host prelude m = (.value s, m₁))
    (calls more : List Call) : m.store.frames.size ≤ s.global ∧ (s.after calls m₁).store.From
      (.reading (HasRead limit host prelude s m₁ (calls ++ more)) m.store.frames.size) := by
  have hπ := HasRead.closed limit host prelude s m₁ (calls ++ more) m.store.frames.size
  have hstarted := start_from hπ (fun _ => Iff.rfl) (fun p => Or.inl ⟨p, rfl⟩)
    (fun code hcode form hform => Or.inl ⟨form, Or.inl ⟨code, hcode, hform⟩, .self⟩) h
  refine ⟨hstarted.1, after_from hπ hstarted.1 hstarted.2 fun form hform => ?_⟩
  exact Or.inl ⟨form, Or.inr ((readBy_append ..).2 (Or.inl hform)), .self⟩

end Session

/-- **Data never becomes code.** Let a session be started on any machine, with any prelude, and let any
calls be made on it, each of which may end in any way. In every frame made since the session was started,
all bound names are known, and all values are traced to the forms read so far: their closures are
procedures written there, and their symbols are known. One more call gives a traced value if it gives one.
Whatever form is evaluated in its course is part of a form that was read, or the body of a procedure
written there, and no list in it was made at run time, while the lists that primitives make always are. -/
theorem Session.code_as_read {limit : Nat} {host : Host} {prelude : Prelude} {s : Session}
    {m₀ m₁ : Machine} (hstart : Session.start limit host prelude m₀ = (.value s, m₁))
    (calls : List Session.Call) :
    (∀ g f, m₀.store.frames.size ≤ g → (s.after calls m₁).store.frame? g = some f →
      ∀ p ∈ f.bindings, KnownName (HasRead limit host prelude s m₁ calls) p.1 ∧
        Traced (HasRead limit host prelude s m₁ calls) p.2) ∧
    (∀ c : Session.Call,
      (∀ v m', (c.task s).run (s.after calls m₁) = (.value v, m') →
        Traced (HasRead limit host prelude s m₁ (calls ++ [c])) v) ∧
      ∀ k e i m', Relation.ReflTransGen Starts (c.task s, s.after calls m₁) (.form k e i, m') →
        Evaluable (HasRead limit host prelude s m₁ (calls ++ [c])) e ∧
          ∀ id items, ¬ (Value.list (some id) items).Occurs e) ∧
    ∀ (p : Primitive) k id args v, p.call k id args = .value v →
      ∀ items, (Value.literal items).Occurs v → ∃ a ∈ args, (Value.literal items).Occurs a := by
  refine ⟨?_, ?_, fun p k id args v hcall items => Primitive.call_literal hcall⟩
  · intro g f hg hf p hp
    obtain ⟨-, hstore⟩ := Session.start_after_from hstart calls []
    rw [List.append_nil] at hstore
    obtain ⟨hname, hvalue⟩ := hstore.bindings hg hf p hp
    exact ⟨hname, hvalue.traced fun _ => HasRead.isLiteral⟩
  · intro c
    obtain ⟨hs, hstore⟩ := Session.start_after_from hstart calls [c]
    have hπ := HasRead.closed limit host prelude s m₁ (calls ++ [c]) m₀.store.frames.size
    have ht : (c.task s).From (.reading (HasRead limit host prelude s m₁ (calls ++ [c]))
        m₀.store.frames.size) (s.after calls m₁) := by
      refine c.task_from hs fun form hform => Or.inl ⟨form, Or.inr ?_, .self⟩
      exact (readBy_append ..).2 (Or.inr (Or.inl hform))
    constructor
    · intro v m' hrun
      exact ((c.derives hπ hstore ht).of_eq hrun).2.traced fun _ => HasRead.isLiteral
    · intro k e i m' hchain
      have hcode : Evaluable _ e := (Task.From.of_chain hπ hchain hstore ht).2.1
      exact ⟨hcode, (hcode.isLiteral fun _ => HasRead.isLiteral).not_occurs_made⟩

/-- A session defines a procedure, and then applies a list that it has put together to look like one. A
procedure that is written with two forms has a `begin` of both as its body. -/
theorem Session.code_as_read_lookalike :
    let s : Session := ⟨0⟩
    let m₁ := (Machine.new .warning).withStandard
    let calls : List Session.Call := [.run 20 "(define f (lambda (x) (begin x)))",
      .eval 20 "(define g (cons (quote lambda) (quote ((y) y)))) (g 1)"]
    let c : Session.Call := .eval 20 "(lambda (x) x (f x))"
    let body : Value :=
      .literal [.symbol "begin", .symbol "x", .literal [.symbol "f", .symbol "x"]]
    let read := HasRead 20 ⟨[], []⟩ .absent s m₁
    Session.start 20 ⟨[], []⟩ .absent (Machine.new .warning) = (.value s, m₁) ∧
      (∀ g f, (s.after calls m₁).store.frame? g = some f →
        ∀ p ∈ f.bindings, KnownName (read calls) p.1 ∧ Traced (read calls) p.2) ∧
      ((c.task s).run m₁).1 = .value (.closure 0 [.symbol "x"] body 0) ∧
      FromLambda (read [c]) [.symbol "x"] body := by
  intro s m₁ calls c body read
  have hstart : Session.start 20 ⟨[], []⟩ .absent (Machine.new .warning) = (.value s, m₁) := rfl
  have hclosure : ((c.task s).run m₁).1 = .value (.closure 0 [.symbol "x"] body 0) := by
    with_unfolding_all rfl
  have htraced := ((Session.code_as_read hstart []).2.1 c).1 _ _ (Prod.ext hclosure rfl)
  exact ⟨hstart, fun g f => (Session.code_as_read hstart calls).1 g f (Nat.zero_le g), hclosure,
    htraced.closures _ _ _ _ .self⟩

end Lisplet
