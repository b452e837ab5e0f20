import Lisplet.Proofs.CodeAndData
import Lisplet.Proofs.Scanning

/-!
# The names of symbols

A symbol that was read has a name that would be read as that symbol again: it is not empty, has no
blanks and no parentheses in it, and does not start with an integer. The keywords and the primitives
have such names too, and evaluation makes no new names. So in all values of a session that is made of
source texts, symbols have such names.

Main definition: `Provenance.named`. Main statements: `isTree_of_mem_readForms`,
`Session.start_after_named`.
-/

namespace Lisplet

/-! ## Atoms -/

/-- An atom that is a symbol has the name of its token. -/
theorem isTree_of_atom {t : String} {v : Value} (hword : IsWord t.toList) (h : atom t = .ok v) :
    IsTree IsName v := by
  rcases atom_eq_ok h with ⟨hnone, rfl⟩ | ⟨sign, digits, rest, -, -, rfl⟩
  · exact .symbol (hword.isName hnone)
  · cases (isForm_of_atom h).1 with
    | int short => exact .int short

/-! ## Forms -/

namespace TokenStream

variable {P : String → Prop} {limit : Nat} {s s' : TokenStream} {v : Value}

/-- The tokens that are not parentheses stand for trees. -/
def Atoms (P : String → Prop) (ts : List String) : Prop :=
  ∀ t ∈ ts, t ≠ "(" → t ≠ ")" → ∀ v, atom t = .ok v → IsTree P v

/-- What is read from tokens that stand for trees is a tree, and so do the tokens that are left. -/
theorem parseFrom_isTree {pending : List (List Value)} {ts : List String}
    (hpending : ∀ items ∈ pending, ∀ v ∈ items, IsTree P v) (hts : s.remaining = ts)
    (hs : Atoms P ts) (h : s.parseFrom limit pending = (.value v, s')) :
    IsTree P v ∧ Atoms P s'.remaining := by
  induction ts generalizing pending s with
  | nil =>
    rw [parseFrom_nil hts] at h
    cases h
  | cons t r ih =>
    obtain ⟨ht, hr⟩ := List.forall_mem_cons.1 hs
    obtain ⟨-, hnext⟩ := advance_of_remaining_cons hts
    have haccept : ∀ rest w, (∀ items ∈ rest, ∀ v ∈ items, IsTree P v) → IsTree P w →
        accept limit rest w s.advance.2 = (.value v, s') → IsTree P v ∧ Atoms P s'.remaining := by
      intro rest w hrest hw hrun
      cases rest with
      | nil =>
        cases hrun
        exact ⟨hw, by rwa [hnext]⟩
      | cons items rest =>
        obtain ⟨hitems, hrest⟩ := List.forall_mem_cons.1 hrest
        have hmore : ∀ items' ∈ (w :: items) :: rest, ∀ v ∈ items', IsTree P v :=
          List.forall_mem_cons.2 ⟨List.forall_mem_cons.2 ⟨hw, hitems⟩, hrest⟩
        exact ih hmore hnext hr hrun
    rw [parseFrom_cons hts] at h
    split at h
    · cases pending with
      | nil => cases h
      | cons items rest =>
        obtain ⟨hitems, hrest⟩ := List.forall_mem_cons.1 hpending
        have hlist : IsTree P (listOf items) := .list fun v hv => hitems v (List.mem_reverse.1 hv)
        exact haccept rest _ hrest hlist h
    · rename_i hclose
      split at h
      · cases h
      · split at h
        · have hmore : ∀ items ∈ [] :: pending, ∀ v ∈ items, IsTree P v :=
            List.forall_mem_cons.2 ⟨by simp, hpending⟩
          exact ih hmore hnext hr h
        · rename_i hopen
          split at h
          · cases h
          · rename_i w hatom
            exact haccept pending w hpending (ht hopen hclose w hatom) h

theorem read_isTree (hs : Atoms P s.remaining) (h : s.read limit = (.ok v, s')) :
    IsTree P v ∧ Atoms P s'.remaining := by
  rcases hparse : s.parseFrom limit [] with ⟨o, s₁⟩
  simp only [read, parse, hparse, Prod.mk.injEq] at h
  obtain ⟨ho, rfl⟩ := h
  cases o with
  | value w =>
    cases ho
    exact parseFrom_isTree (by simp) rfl hs hparse
  | fault f => cases ho
  | exhausted => cases ho

theorem readAll_isTree (hs : Atoms P s.remaining) : ∀ v ∈ (s.readAll limit).forms, IsTree P v := by
  fun_induction readAll limit s with
  | case1 s hnone => simp
  | case2 s t hsome f s' hread => simp
  | case3 s t hsome v s' hread hlen later ih =>
    have hpeek : Atoms P s.peek.2.remaining := by rwa [remaining_peek]
    obtain ⟨hv, hs'⟩ := read_isTree hpeek hread
    exact List.forall_mem_cons.2 ⟨hv, ih hs'⟩

end TokenStream

/-- The forms of a source are trees whose symbols have names. -/
theorem isTree_of_mem_readForms {limit : Nat} {source : String} {form : Value}
    (h : form ∈ (readForms limit source).forms) : IsTree IsName form := by
  apply TokenStream.readAll_isTree (s := .ofSource source) _ form h
  intro t ht hopen hclose v hatom
  rcases token_cases ht with rfl | rfl | hword
  · exact absurd rfl hopen
  · exact absurd rfl hclose
  · exact isTree_of_atom hword hatom

/-! ## Sessions -/

theorem Keyword.isName (k : Keyword) : IsName k.name := by
  cases k <;> decide

theorem Primitive.isName (p : Primitive) : IsName p.name := by
  cases p <;> decide

/-- What sessions of source texts work with, in the frames from a certain one on: all symbols have
names. -/
def Provenance.named (base : FrameId) : Provenance where
  code := IsTree IsName
  closure formals body i :=
    (∃ names, formals = symbols names ∧ ∀ x ∈ names, IsName x) ∧ IsTree IsName body ∧ base ≤ i
  symbol := IsName
  text _ := False
  frame i := base ≤ i

theorem symbols_injective {names names' : List String} (h : symbols names = symbols names') :
    names = names' :=
  List.map_injective_iff.2 (fun _ _ => Value.symbol.inj) h

theorem Provenance.named_closed (base : FrameId) : (Provenance.named base).Closed where
  atom h _ := IsTree.from (P := IsName) (fun _ => id) h
  item h _ := by
    cases h with
    | list hitems => exact hitems
  operand h _ _ := by
    cases h with
    | list hitems => exact (List.forall_mem_cons.1 hitems).2
  quote h := by
    cases h with
    | list hitems => exact (hitems _ (by simp)).from fun _ => id
  lambda {id id' names form forms i} h hi := by
    cases h with
    | list hitems =>
      refine ⟨⟨names, rfl, fun x hx => ?_⟩, ?_, hi⟩
      · -- The parameters are items of a list in the form.
        have hparams : IsTree IsName (.list id' (symbols names)) := hitems _ (by simp)
        cases hparams with
        | list hsymbols =>
          cases hsymbols _ (List.mem_map_of_mem hx) with
          | symbol hname => exact hname
      · exact .bodyOf (Keyword.isName .begin) fun form hform => hitems form (by simp_all)
  body h := h.2.1
  parameter h hx := by
    obtain ⟨⟨names, heq, hnames⟩, -⟩ := h
    rw [symbols_injective heq] at hx
    exact hnames _ hx
  captured h := h.2.2

namespace Session

variable {limit : Nat} {host : Host} {prelude : Prelude} {s : Session} {m m₁ : Machine}

/-- All symbols in the frames of a session have names, whatever sources it has evaluated. -/
theorem start_after_named (h : start limit host prelude m = (.value s, m₁)) (calls : List Call) :
    m.store.frames.size ≤ s.global ∧
      (s.after calls m₁).store.From (.named m.store.frames.size) := by
  have hπ := Provenance.named_closed m.store.frames.size
  have hstarted := start_from hπ (fun _ => Iff.rfl) Primitive.isName
    (fun code _ form hform => isTree_of_mem_readForms hform) h
  refine ⟨hstarted.1, after_from hπ hstarted.1 hstarted.2 fun form hform => ?_⟩
  obtain ⟨_, _, hmem⟩ := hform.mem
  exact isTree_of_mem_readForms hmem

/-- Whatever source is evaluated then, the symbols of its value have names. -/
theorem eval_named {calls : List Call} {k : Nat} {source : String} {v : Value} {m' : Machine}
    (h : start limit host prelude m = (.value s, m₁))
    (heval : s.eval k source (s.after calls m₁) = (.value v, m')) :
    v.From (.named m.store.frames.size) := by
  obtain ⟨hs, hstore⟩ := start_after_named h calls
  have hderives : Derives (.named m.store.frames.size) (Value.From (.named m.store.frames.size))
      (s.eval k source (s.after calls m₁)) :=
    evalSource_derives (Provenance.named_closed _) hs hstore
      fun form hform => isTree_of_mem_readForms hform.mem
  exact (hderives.of_eq heval).2

end Session

end Lisplet
