import Lisplet.Proofs.CodeAndData

/-!
# Conditions on code

Some conditions on forms pass on to whatever is evaluated for the form: to the items of an application,
to the operands of a keyword, to the body of a procedure that is written in the form. If such a condition
holds of a form and of the bodies of all closures that the form or the store holds, it holds of everything
that is evaluated from there on, since data never becomes code.

Main definitions: `Hereditary`, `Value.BodiesMeet`, `Provenance.meeting`. Main statements:
`Value.from_meeting`, `Hereditary.closed`.
-/

namespace Lisplet

/-- The condition passes from a form to the forms that are evaluated for it, and to a body that is made
of such forms. -/
structure Hereditary (P : Value → Prop) : Prop where
  item : ∀ {id head ops}, P (.list id (head :: ops)) → head.keyword? = none → ∀ v ∈ head :: ops, P v
  /-- The operands of all keywords, since those of `lambda` become a body. -/
  operand : ∀ {id k ops}, P (.list id (.symbol (Keyword.name k) :: ops)) → k ≠ .quote → ∀ v ∈ ops, P v
  begin : ∀ {forms}, (∀ form ∈ forms, P form) → P (.literal (.symbol Keyword.begin.name :: forms))

/-- Every closure that occurs in the value has a body that meets the condition. -/
def Value.BodiesMeet (P : Value → Prop) (v : Value) : Prop :=
  ∀ id formals body i, (Value.closure id formals body i).Occurs v → P body

/-- Forms and closures that meet a condition, whatever the names and the frames. -/
def Provenance.meeting (P : Value → Prop) : Provenance where
  code v := P v ∧ v.BodiesMeet P
  closure _ body _ := P body ∧ body.BodiesMeet P
  symbol _ := True
  text _ := True
  frame _ := True

variable {P : Value → Prop}

namespace Value.BodiesMeet

theorem of_occurs {v w : Value} (h : v.BodiesMeet P) (hw : w.Occurs v) : w.BodiesMeet P :=
  fun id formals body i hoccurs => h id formals body i (hoccurs.trans hw)

theorem item {id : Option ObjectId} {items : List Value} {v : Value}
    (h : (Value.list id items).BodiesMeet P) (hv : v ∈ items) : v.BodiesMeet P :=
  h.of_occurs (.item hv .self)

theorem list {id : Option ObjectId} {items : List Value} (h : ∀ v ∈ items, v.BodiesMeet P) :
    (Value.list id items).BodiesMeet P := by
  intro cid formals body i hoccurs
  cases hoccurs with
  | item hmem hin => exact h _ hmem cid formals body i hin

theorem closure {id : ObjectId} {formals : List Value} {body : Value} {i : FrameId}
    (hformals : ∀ v ∈ formals, v.BodiesMeet P) (hbody : P body ∧ body.BodiesMeet P) :
    (Value.closure id formals body i).BodiesMeet P := by
  intro cid cformals cbody ci hoccurs
  cases hoccurs with
  | self => exact hbody.1
  | parameter hmem hin => exact hformals _ hmem cid cformals cbody ci hin
  | body hin => exact hbody.2 cid cformals cbody ci hin

/-- No closure is written in a program. -/
theorem of_isLiteral {v : Value} (h : v.IsLiteral) : v.BodiesMeet P := by
  intro id formals body i hoccurs
  cases h.of_occurs hoccurs

theorem bodyOf {forms : List Value} (h : ∀ form ∈ forms, form.BodiesMeet P) :
    (Value.bodyOf forms).BodiesMeet P := by
  unfold Value.bodyOf
  split
  · next form => exact h form (List.mem_singleton_self form)
  · exact .list (List.forall_mem_cons.2 ⟨.of_isLiteral .symbol, h⟩)

end Value.BodiesMeet

/-- A value whose closures meet the condition is made of what is permitted. -/
theorem Value.from_meeting : (v : Value) → v.BodiesMeet P → v.From (.meeting P)
  | .noValue, _ => .noValue
  | .bool _, _ => .bool
  | .int _, _ => .int
  | .symbol _, _ => .symbol trivial
  | .list _ items, h => .list fun v hv => Value.from_meeting v (h.item hv)
  | .primitive .., _ => .primitive
  | .closure id formals body i, h =>
    .closure ⟨h id formals body i .self, h.of_occurs (.body .self)⟩
  | .text _, _ => .text trivial

namespace Hereditary

theorem bodyOf (hP : Hereditary P) {forms : List Value} (h : ∀ form ∈ forms, P form) :
    P (Value.bodyOf forms) := by
  unfold Value.bodyOf
  split
  · next form => exact h form (List.mem_singleton_self form)
  · exact hP.begin h

/-- What meets a condition that passes on to all code stays what it is. -/
theorem closed (hP : Hereditary P) : (Provenance.meeting P).Closed where
  atom h _ := Value.from_meeting _ h.2
  item h hk v hv := ⟨hP.item h.1 hk v hv, h.2.item hv⟩
  operand h hquote _ v hv := ⟨hP.operand h.1 hquote v hv, h.2.item (List.mem_cons_of_mem _ hv)⟩
  quote h := Value.from_meeting _ (h.2.item (by simp))
  lambda {id id' names form forms i} h _ := by
    have hform : ∀ v ∈ form :: forms, P v ∧ v.BodiesMeet P := by
      intro v hv
      have hop : v ∈ Value.list id' (symbols names) :: form :: forms := List.mem_cons_of_mem _ hv
      exact ⟨hP.operand h.1 (by simp) v hop, h.2.item (List.mem_cons_of_mem _ hop)⟩
    exact ⟨hP.bodyOf fun v hv => (hform v hv).1, .bodyOf fun v hv => (hform v hv).2⟩
  body h := h
  parameter _ _ := trivial
  captured _ := trivial

end Hereditary

end Lisplet
