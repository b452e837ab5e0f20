import Lisplet.Proofs.Execution
import Lisplet.Proofs.PrimitiveCalls
import Lisplet.Proofs.ReadBack
import Lisplet.Proofs.Sessions
import Lisplet.Proofs.Failures

/-!
# A program that maps a procedure over a list

The program `map1` goes through a list by recursion: it applies a procedure to the first item, maps the
rest and puts the two together. Every call takes seven units of depth more than the call inside it, so
the depth that a list needs is linear in its length. Below that depth the program is cut off, from it
on it returns the list of the results, and it never changes a frame that was there before.

Nothing is needed about the procedure but what it comes to on the items of the list, and that this is no
list, since `cons` would splice it.

Main definitions: `mapSource`, `squaring`, `Called`, `Takes`. Main statements: `mapBody_delivers`,
`squaring_delivers`, `Session.map_squares`.
-/

namespace Lisplet

open Run (Delivers)

/-! ## The program -/

/-- The text that defines the program. -/
def mapSource : String :=
  "
        (define map1 (lambda (f xs)
          (if (null? xs)
              (list)
              (cons (f (car xs)) (map1 f (cdr xs))))))
        "

/-- What a call of the program evaluates. -/
def mapBody : Value :=
  .literal [.symbol "if",
    .literal [.symbol "null?", .symbol "xs"],
    .literal [.symbol "list"],
    .literal [.symbol "cons",
      .literal [.symbol "f", .literal [.symbol "car", .symbol "xs"]],
      .literal [.symbol "map1", .symbol "f", .literal [.symbol "cdr", .symbol "xs"]]]]

/-- The definition of the program. -/
def mapDefinition : Value :=
  .literal [.symbol "define", .symbol "map1",
    .literal [.symbol "lambda", .literal (symbols ["f", "xs"]), mapBody]]

/-- The procedure that squares a number. -/
def square : Value :=
  .literal [.symbol "lambda", .literal (symbols ["x"]),
    .literal [.symbol "*", .symbol "x", .symbol "x"]]

/-- What that procedure evaluates to in a frame. -/
def squareClosure (id : ObjectId) (g : FrameId) : Value :=
  .closure id (symbols ["x"]) (.literal [.symbol "*", .symbol "x", .symbol "x"]) g

/-- The application of the program to the squaring procedure and a list of integers. -/
def squaring (xs : List Int) : Value :=
  .literal [.symbol "map1", square, .literal (.symbol "list" :: xs.map .int)]

/-! ## Global frames that have the program -/

/-- No primitive has the name of a keyword. -/
theorem Primitive.keyword?_name (p : Primitive) : (Value.symbol p.name).keyword? = none := by
  cases p <;> rfl

/-- From the global frame the primitives are seen, and the program is. -/
structure Equipped (s : Store) (g : FrameId) : Prop where
  inside : g < s.frames.size
  primitive : ∀ p : Primitive, s.lookup? g p.name = some (.primitive p g)
  program : ∃ id, s.lookup? g "map1" = some (.closure id (symbols ["f", "xs"]) mapBody g)

theorem Equipped.grows {s s' : Store} {g : FrameId} (h : Equipped s g) (hgrows : s.Grows s') :
    Equipped s' g where
  inside := hgrows.lt_size h.inside
  primitive p := by rw [hgrows.lookup?_eq h.inside, h.primitive]
  program := by
    rw [hgrows.lookup?_eq h.inside]
    exact h.program

/-- A frame of a call of the program: it has the procedure and the list, and shows what the global frame
shows for all other names. -/
structure Called (s : Store) (g j : FrameId) (procedure list : Value) : Prop where
  equipped : Equipped s g
  inside : j < s.frames.size
  procedure : s.lookup? j "f" = some procedure
  list : s.lookup? j "xs" = some list
  others : ∀ x, x ≠ "f" → x ≠ "xs" → s.lookup? j x = s.lookup? g x

namespace Called

variable {s s' : Store} {g j : FrameId} {procedure list : Value}

theorem grows (h : Called s g j procedure list) (hgrows : s.Grows s') :
    Called s' g j procedure list where
  equipped := h.equipped.grows hgrows
  inside := hgrows.lt_size h.inside
  procedure := by rw [hgrows.lookup?_eq h.inside, h.procedure]
  list := by rw [hgrows.lookup?_eq h.inside, h.list]
  others x hf hxs := by
    rw [hgrows.lookup?_eq h.inside, hgrows.lookup?_eq h.equipped.inside, h.others x hf hxs]

theorem primitive (h : Called s g j procedure list) (p : Primitive) :
    s.lookup? j p.name = some (.primitive p g) := by
  rw [h.others p.name (by cases p <;> decide) (by cases p <;> decide), h.equipped.primitive p]

/-- The frame that a call makes is one. -/
theorem addFrame (h : Equipped s g) (procedure list : Value) :
    Called (s.addFrame (Bindings.ofPairs (["f", "xs"].zip [procedure, list])) (some g)).2 g
      s.frames.size procedure list where
  equipped := h.grows (.addFrame ..)
  inside := Store.addFrame_fst_lt ..
  procedure := by rw [Store.lookup?_addFrame]; rfl
  list := by rw [Store.lookup?_addFrame]; rfl
  others x hf hxs := by
    have hnone : (Bindings.ofPairs (["f", "xs"].zip [procedure, list])).get? x = none := by
      simp [Bindings.ofPairs, Bindings.setAll, Bindings.set, Bindings.get?, Ne.symm hf, Ne.symm hxs]
    rw [Store.lookup?_addFrame, hnone, (Store.Grows.addFrame ..).lookup?_eq h.inside]
    rfl

end Called

/-! ## Calls of the program -/

/-- From the store on, with so much depth for what it calls, the procedure takes one value to another
that is no list. -/
structure Takes (s : Store) (depth : Nat) (procedure v w : Value) : Prop where
  single : w.kind ≠ .list
  apply : ∀ s' limit, s.Grows s' →
    Delivers (apply limit (eval limit) procedure [v]) s' (limit < depth) fun result _ => result = w

theorem Takes.grows {s s' : Store} {depth : Nat} {procedure v w : Value}
    (h : Takes s depth procedure v w) (hgrows : s.Grows s') : Takes s' depth procedure v w where
  single := h.single
  apply s₁ limit hgrows₁ := h.apply s₁ limit (hgrows.trans hgrows₁)

section Calls

variable {s : Store} {g j : FrameId} {procedure : Value} {limit : Nat} {id : Option ObjectId}
  {v w : Value} {items results : List Value} {depth : Nat} {short : Prop}

/-- A primitive on the list of the call. -/
theorem Called.access {list : Value} (h : Called s g j procedure list) (p : Primitive)
    {r : ObjectId → Value} (hlimit : limit < 3 → short)
    (hcall : ∀ k id, p.call k id [list] = .value (r id)) :
    Delivers (eval limit (.literal [.symbol p.name, .symbol "xs"]) j) s short
      fun v _ => ∃ id, v = r id := by
  refine .eval_call p.keyword?_name (h.primitive p) hlimit (A := fun args _ => args = [list]) ?_ ?_
  · refine .evalAll_cons (.eval_symbol h.list fun hzero => hlimit (by omega)) ?_
    rintro _ _ - ⟨rfl, rfl⟩
    exact .evalAll_nil rfl
  · rintro _ s₁ - rfl
    exact .apply_primitive (hcall _)

/-- The test of the program, whether the list is empty. -/
theorem Called.test (h : Called s g j procedure (.list id items)) (hlimit : limit < 3 → short) :
    Delivers (eval limit (.literal [.symbol "null?", .symbol "xs"]) j) s short
      fun w _ => w = .bool items.isEmpty :=
  (h.access .isNull (r := fun _ => .bool items.isEmpty) hlimit fun _ _ => rfl).mono
    (fun hshort => hshort) fun _ _ ⟨_, hw⟩ => hw

/-- What is made of the first item of the list. -/
theorem Called.first (h : Called s g j procedure (.list id (v :: items)))
    (htakes : Takes s depth procedure v w) (hlimit : limit < depth + 5 → short) :
    Delivers (eval limit (.literal [.symbol "f", .literal [.symbol "car", .symbol "xs"]]) j) s short
      fun result _ => result = w := by
  refine .eval_call rfl h.procedure (fun hlt => hlimit (by omega)) (A := fun args _ => args = [v]) ?_ ?_
  · refine .evalAll_cons (h.access .car (r := fun _ => v) (fun hlt => hlimit (by omega)) fun _ _ => rfl) ?_
    rintro _ s₁ - ⟨-, rfl⟩
    exact .evalAll_nil rfl
  · rintro _ s₁ hgrows rfl
    exact (htakes.apply s₁ _ hgrows).mono (fun hlt => hlimit (by omega)) fun _ _ hresult => hresult

/-- What is made of the rest of the list, by a call of the program whose body comes to it. -/
theorem Called.rest (enough : Nat) (results : List Value)
    (h : Called s g j procedure (.list id (v :: items)))
    (hbody : ∀ s' k id, s.Grows s' → Called s' g k procedure (.list id items) →
      Delivers (eval (limit - 3) mapBody k) s' (limit - 3 < enough)
        fun result _ => ∃ id, result = .list (some id) results)
    (hlimit : limit < enough + 3 → short) (hpos : 2 ≤ enough) :
    Delivers (eval limit (.literal [.symbol "map1", .symbol "f", .literal [.symbol "cdr", .symbol "xs"]]) j)
      s short fun result _ => ∃ id, result = .list (some id) results := by
  obtain ⟨k, hprogram⟩ := h.equipped.program
  have hname : s.lookup? j "map1" = some (.closure k (symbols ["f", "xs"]) mapBody g) := by
    rw [h.others "map1" (by decide) (by decide), hprogram]
  refine .eval_call rfl hname (fun hlt => hlimit (by omega))
    (A := fun args _ => ∃ id, args = [procedure, .list (some id) items]) ?_ ?_
  · refine .evalAll_cons (.eval_symbol h.procedure fun hzero => hlimit (by omega)) ?_
    rintro _ _ - ⟨rfl, rfl⟩
    refine .evalAll_cons (h.access .cdr (r := fun id => .list (some id) items)
      (fun hlt => hlimit (by omega)) fun _ _ => rfl) ?_
    rintro _ s₁ - ⟨id, rfl⟩
    exact .evalAll_nil ⟨id, rfl⟩
  · rintro _ s₁ hgrows ⟨id, rfl⟩
    refine .apply_closure rfl ?_
    have hcalled := Called.addFrame (h.equipped.grows hgrows) procedure (.list (some id) items)
    exact (hbody _ _ _ (hgrows.trans (.addFrame ..)) hcalled).mono (fun hlt => hlimit (by omega))
      fun _ _ hresult => hresult

/-- The body of the program, in a frame of a call, comes to the list of what the procedure takes the
items to. Each item of the list costs seven units of depth. -/
theorem mapBody_delivers (htakes : List.Forall₂ (Takes s depth procedure) items results)
    (h : Called s g j procedure (.list id items)) :
    Delivers (eval limit mapBody j) s (limit < 7 * items.length + depth + 5)
      fun result _ => ∃ id, result = .list (some id) results := by
  induction items generalizing results s j limit id with
  | nil =>
    obtain rfl := List.forall₂_nil_left_iff.1 htakes
    refine .eval_keyword .cond (fun hzero => by omega) (.runCond true (h.test fun hlt => by omega) ?_)
    intro s₁ hgrows
    have hlist := (h.grows hgrows).primitive .list
    refine .eval_call rfl hlist (fun hlt => by omega) (A := fun args _ => args = []) (.evalAll_nil rfl) ?_
    rintro _ s₂ - rfl
    exact .apply_primitive fun _ => rfl
  | cons v items ih =>
    obtain ⟨w, results, hfirst, hrest, rfl⟩ := List.forall₂_cons_left_iff.1 htakes
    rw [List.length_cons]
    refine .eval_keyword .cond (fun hzero => by omega) (.runCond false (h.test fun hlt => by omega) ?_)
    intro s₁ hgrows
    have h₁ := h.grows hgrows
    refine .eval_call rfl (h₁.primitive .cons) (fun hlt => by omega)
      (A := fun args _ => ∃ id, args = [w, .list (some id) results]) ?_ ?_
    · refine .evalAll_cons (h₁.first (hfirst.grows hgrows) fun hlt => by omega) ?_
      rintro w s₂ hgrows₂ rfl
      refine .evalAll_cons ((h₁.grows hgrows₂).rest (7 * items.length + depth + 5) results
        (fun s₃ k id hgrows₃ hcalled => ?_) (fun hlt => by omega) (by omega)) ?_
      · have hlater := (hgrows.trans hgrows₂).trans hgrows₃
        exact ih (hrest.imp fun _ _ htake => htake.grows hlater) hcalled
      · rintro _ s₃ - ⟨id, rfl⟩
        exact .evalAll_nil ⟨id, rfl⟩
    · rintro _ s₂ - ⟨id, rfl⟩
      -- The result of the first item is no list, so it is put in front of the others as it is.
      refine .apply_primitive fun id => ?_
      rw [Primitive.call_cons, Primitive.asList_of_not_list hfirst.single]
      rfl

end Calls

/-! ## Squares -/

section Squares

variable {s : Store} {g : FrameId} {limit : Nat}

/-- The squaring procedure takes a number to its square. -/
theorem takes_square (h : Equipped s g) (id : ObjectId) (n : Int) :
    Takes s 3 (squareClosure id g) (.int n) (.int (n * n)) where
  single := by simp [Value.kind]
  apply s' limit hgrows := by
    have h' := h.grows hgrows
    refine .apply_closure rfl ?_
    have hx : (s'.addFrame (Bindings.ofPairs (["x"].zip [.int n])) (some g)).2.lookup? s'.frames.size "x" =
        some (.int n) := by
      rw [Store.lookup?_addFrame]
      rfl
    have hmul : (s'.addFrame (Bindings.ofPairs (["x"].zip [.int n])) (some g)).2.lookup? s'.frames.size
        Primitive.mul.name = some (.primitive .mul g) := by
      rw [Store.lookup?_addFrame, h'.primitive]
      rfl
    refine .eval_call rfl hmul (fun hlt => hlt) (A := fun args _ => args = [.int n, .int n]) ?_ ?_
    · refine .evalAll_cons (.eval_symbol hx fun hzero => by omega) ?_
      rintro _ _ - ⟨rfl, rfl⟩
      refine .evalAll_cons (.eval_symbol hx fun hzero => by omega) ?_
      rintro _ _ - ⟨rfl, rfl⟩
      exact .evalAll_nil rfl
    · rintro _ s₂ - rfl
      refine (Delivers.apply_primitive (r := fun _ => .int (n * n)) fun _ => rfl).mono
        (fun hshort => hshort) ?_
      rintro _ _ ⟨-, rfl⟩
      rfl

theorem takes_squares (h : Equipped s g) (id : ObjectId) (xs : List Int) :
    List.Forall₂ (Takes s 3 (squareClosure id g)) (xs.map .int) (xs.map fun x => .int (x * x)) := by
  rw [List.forall₂_map_left_iff, List.forall₂_map_right_iff, List.forall₂_same]
  exact fun x _ => takes_square h id x

/-- Integers evaluate to themselves. -/
theorem evalAll_ints {short : Prop} {i : FrameId} (xs : List Int) (hlimit : limit = 0 → short) :
    Delivers (evalAll (eval limit) i (xs.map .int)) s short fun vs s' => vs = xs.map .int ∧ s' = s := by
  induction xs with
  | nil => exact .evalAll_nil ⟨rfl, rfl⟩
  | cons x xs ih =>
    refine .evalAll_cons (.eval_int x hlimit) ?_
    rintro _ _ - ⟨rfl, rfl⟩
    refine ih.mono (fun hshort => hshort) ?_
    rintro _ _ ⟨rfl, rfl⟩
    exact ⟨rfl, rfl⟩

/-- Where the program is defined, its application to the squaring procedure comes to the squares. -/
theorem squaring_delivers (h : Equipped s g) (xs : List Int) :
    Delivers (eval limit (squaring xs) g) s (limit < 7 * xs.length + 11)
      fun result _ => ∃ id, result = .list (some id) (xs.map fun x => .int (x * x)) := by
  obtain ⟨k, hprogram⟩ := h.program
  refine .eval_call rfl hprogram (fun hlt => by omega)
    (A := fun args _ => ∃ id id', args = [squareClosure id g, .list (some id') (xs.map .int)]) ?_ ?_
  · refine .evalAll_cons (.eval_keyword .lambda (fun hzero => by omega) (.runLambda ["x"] _)) ?_
    rintro _ s₁ hgrows ⟨id, rfl⟩
    have hlist := (h.grows hgrows).primitive .list
    refine .evalAll_cons (P := fun v _ => ∃ id, v = .list (some id) (xs.map .int))
      (.eval_call rfl hlist (fun hlt => by omega) (evalAll_ints xs fun hzero => by omega) ?_) ?_
    · rintro _ s₂ - ⟨rfl, rfl⟩
      exact .apply_primitive fun _ => rfl
    · rintro _ s₂ - ⟨id', rfl⟩
      exact .evalAll_nil ⟨id, id', rfl⟩
  · rintro _ s₁ hgrows ⟨id, id', rfl⟩
    refine .apply_closure rfl ?_
    have h₁ := h.grows hgrows
    have hcalled := Called.addFrame h₁ (squareClosure id g) (.list (some id') (xs.map .int))
    refine (mapBody_delivers (takes_squares hcalled.equipped id xs) hcalled).mono (fun hlt => ?_)
      fun _ _ hw => hw
    rw [List.length_map] at hlt
    omega

end Squares

/-! ## The definition -/

/-- The store in which the program is defined in a frame. -/
def Store.withMap (s : Store) (g : FrameId) : Store :=
  s.addObject.2.bind g "map1" (.closure s.objects (symbols ["f", "xs"]) mapBody g)

set_option maxRecDepth 4000 in
theorem readForms_mapSource : readForms 8 mapSource = ⟨[mapDefinition], none⟩ := by
  with_unfolding_all rfl

theorem evaluate_mapDefinition (limit : Nat) (g : FrameId) (s : Store) :
    (evaluate (limit + 3) mapDefinition g).Ends s (.ok .noValue) (s.withMap g) := by
  have hlambda : (eval (limit + 1) (.literal [.symbol "lambda", .literal (symbols ["f", "xs"]), mapBody])
      g).Ends s (.ok (.closure s.objects (symbols ["f", "xs"]) mapBody g)) s.addObject.2 := by
    rw [eval]
    refine .bind (.report rfl s) ?_
    rw [Keyword.run, Keyword.runLambda_symbols]
    exact .bind (.report rfl s) (.update _ s)
  refine .guard .evaluating ?_
  rw [eval]
  refine .bind (.report rfl s) ?_
  exact .bind hlambda (.bind (.update _ _) (.pure _ _))

/-- Evaluating the definition defines the program. -/
theorem evalSource_mapSource {limit : Nat} (hlimit : 8 ≤ limit) (g : FrameId) (s : Store) :
    (evalSource limit mapSource g).Ends s (.ok .noValue) (s.withMap g) := by
  have hread : readForms limit mapSource = ⟨[mapDefinition], none⟩ :=
    (readForms_single readForms_mapSource limit).resolve_right fun ⟨hlt, _⟩ => by omega
  have hmem : mapDefinition ∈ (readForms limit mapSource).forms := by
    rw [hread]
    exact List.mem_singleton_self _
  obtain ⟨shown, hshown⟩ := describe_of_mem_readForms hmem
  obtain ⟨k, rfl⟩ : ∃ k, limit = k + 3 := ⟨limit - 3, by omega⟩
  unfold evalSource
  rw [hread]
  refine .bind (.bind (.report (Event.message_readForm hshown) s) ?_) (.pure _ _)
  exact .bind (evaluate_mapDefinition k g s) (.pure _ _)

/-- A primitive is bound under its name in a new global frame. -/
theorem get?_standardBindings (p : Primitive) (home : FrameId) :
    (Store.standardBindings home).get? p.name = some (.primitive p home) := by
  cases p <;> rfl

/-- A global frame in which the program is defined has the program and the primitives. -/
theorem equipped_withMap {s : Store} {g : FrameId}
    (hg : s.frame? g = some ⟨Store.standardBindings g, none⟩) : Equipped (s.withMap g) g := by
  obtain ⟨c, hc⟩ : ∃ c, c = Value.closure s.objects (symbols ["f", "xs"]) mapBody g := ⟨_, rfl⟩
  have hframe : (s.withMap g).frame? g = some ⟨(Store.standardBindings g).set "map1" c, none⟩ := by
    have hg' : s.addObject.2.frame? g = some ⟨Store.standardBindings g, none⟩ := hg
    rw [Store.withMap, Store.frame?_bind, hg', hc]
    simp
  have hlookup : ∀ x v, ((Store.standardBindings g).set "map1" c).get? x = some v →
      (s.withMap g).lookup? g x = some v := by
    intro x v hv
    have hfind := Store.find?_of_binds hframe (x := x) (by simp [Bindings.binds, hv])
    simp [Store.lookup?, hfind, Store.get?, Store.bindings, hframe, hv]
  refine ⟨Store.lt_size_of_frame? hframe, fun p => hlookup _ _ ?_, s.objects, hlookup _ _ ?_⟩
  · rw [Bindings.get?_set_of_ne _ _ (by cases p <;> decide), get?_standardBindings]
  · rw [Bindings.get?_set_self, hc]

/-! ## Sessions -/

/-- The application can be written down if its integers can. -/
theorem isTree_squaring {xs : List Int} (hxs : ∀ x ∈ xs, ¬ IsLong x) : IsTree IsName (squaring xs) := by
  have hnames : ∀ x ∈ ["*", "x", "x"], IsName x := by decide
  have hsymbols : ∀ v ∈ symbols ["*", "x", "x"], IsTree IsName v := by
    intro v hv
    obtain ⟨x, hx, rfl⟩ := List.mem_map.1 hv
    exact .symbol (hnames x hx)
  have hints : ∀ v ∈ xs.map Value.int, IsTree IsName v := by
    intro v hv
    obtain ⟨x, hx, rfl⟩ := List.mem_map.1 hv
    exact .int (Nat.le_of_not_lt (hxs x hx))
  have hsquare : IsTree IsName square := by
    apply IsTree.list
    simp only [List.forall_mem_cons, List.not_mem_nil, false_imp_iff, implies_true, and_true]
    have hx : IsTree IsName (.symbol "x") := .symbol (by decide)
    exact ⟨.symbol (by decide), .list fun v hv => List.mem_singleton.1 hv ▸ hx, .list hsymbols⟩
  apply IsTree.list
  simp only [List.forall_mem_cons, List.not_mem_nil, false_imp_iff, implies_true, and_true]
  exact ⟨.symbol (by decide), hsquare, .list (List.forall_mem_cons.2 ⟨.symbol (by decide), hints⟩)⟩

theorem nesting_squaring (xs : List Int) : (squaring xs).nesting < 8 := by
  have hints : nestingAll (.symbol "list" :: xs.map .int) ≤ 1 := by
    apply nestingAll_le_iff.2
    rintro v hv
    rcases List.mem_cons.1 hv with rfl | hv
    · exact Nat.one_pos
    · obtain ⟨x, -, rfl⟩ := List.mem_map.1 hv
      exact Nat.one_pos
  have hsquare : square.nesting = 2 := rfl
  simp only [squaring, Value.nesting, nestingAll, hsquare] at hints ⊢
  omega

theorem written_squaring (xs : List Int) : (squaring xs).written = squaring xs := by
  have hints : writtenAll (xs.map .int) = xs.map .int := by
    rw [writtenAll_eq_map, List.map_map]
    rfl
  simp only [squaring, Value.written, writtenAll, hints]
  rfl

/-- A new session that has evaluated the definition has the program. -/
theorem Session.equipped {limit₀ limit₁ : Nat} {host : Host} {s : Session} {v : Value}
    {m₀ m₁ m₂ : Machine} (hstart : Session.start limit₀ host .absent m₀ = (.value s, m₁))
    (hdefine : s.eval limit₁ mapSource m₁ = (.value v, m₂)) : Equipped m₂.store s.global := by
  have hblank : Session.start limit₀ host .absent m₀ =
      (.value ⟨m₀.store.frames.size⟩, m₀.withStandard) := rfl
  cases hblank.symm.trans hstart
  -- With more depth the definition comes to the same, and then it can be followed.
  have hdeep : evalSource (limit₁ + 8) mapSource m₀.store.frames.size m₀.withStandard =
      (.value v, m₂) := by
    rcases evalSource_approx (Nat.le_add_right limit₁ 8) mapSource m₀.store.frames.size
      m₀.withStandard with hcut | heq
    · rw [show evalSource limit₁ mapSource m₀.store.frames.size m₀.withStandard = _ from hdefine] at hcut
      rcases hcut with hcut | ⟨activity, hcut⟩ <;> cases hcut
    · exact heq.symm.trans hdefine
  obtain ⟨log, hends⟩ := evalSource_mapSource (Nat.le_add_left 8 limit₁) m₀.store.frames.size
    m₀.withStandard.store m₀.withStandard.log
  cases hends.symm.trans hdeep
  exact equipped_withMap (by rw [m₀.frame?_withStandard, if_pos rfl])

/-- **The mapping program computes what it says.** Let a new session evaluate the definition of the
program. Then its application to the squaring procedure and any list of integers, evaluated as a form
or as a text, comes to the list of the squares or is cut off by the depth limit. It is never cut off
from a limit on that depends on the length of the list only, and at every limit the global frame is left
as it was. -/
theorem Session.map_squares {limit₀ limit₁ : Nat} {host : Host} {s : Session} {v : Value}
    {m₀ m₁ m₂ : Machine} (hstart : Session.start limit₀ host .absent m₀ = (.value s, m₁))
    (hdefine : s.eval limit₁ mapSource m₁ = (.value v, m₂)) (xs : List Int) (limit : Nat)
    (x : Run Value) (hx : x = evaluate limit (squaring xs) s.global ∨
      x = s.eval limit (String.ofList (squaring xs).source) ∧ ∀ n ∈ xs, ¬ IsLong n) :
    ((∃ activity, (x m₂).1 = .fault (.tooDeep activity)) ∨
      ∃ id, (x m₂).1 = .value (.list (some id) (xs.map fun n => .int (n * n)))) ∧
    (7 * xs.length + 11 ≤ limit →
      ∃ id, (x m₂).1 = .value (.list (some id) (xs.map fun n => .int (n * n)))) ∧
    (x m₂).2.store.bindings s.global = m₂.store.bindings s.global := by
  have hequipped := Session.equipped hstart hdefine
  have hform : Delivers (Lisplet.eval limit (squaring xs) s.global) m₂.store (limit < 7 * xs.length + 11)
      fun result _ => ∃ id, result = .list (some id) (xs.map fun n => .int (n * n)) :=
    squaring_delivers hequipped xs
  have hdelivers : Delivers x m₂.store (limit < 7 * xs.length + 11)
      fun result _ => ∃ id, result = .list (some id) (xs.map fun n => .int (n * n)) := by
    rcases hx with rfl | ⟨rfl, hshort⟩
    · exact hform.guard .evaluating
    · have hread := readForms_source (isTree_squaring hshort) (nesting_squaring xs)
      rw [written_squaring] at hread
      exact .evalSource_single 8 hread (fun hlt => by omega) hform
  have hconcludes : x.Concludes := by
    rcases hx with rfl | ⟨rfl, -⟩
    · exact .guard _ _
    · exact evalSource_concludes limit _ s.global
  obtain ⟨hgrows, hend⟩ := hdelivers.concluded hconcludes
  refine ⟨?_, ?_, hgrows.bindings_eq hequipped.inside⟩
  · rcases hend with ⟨result, hresult, id, rfl⟩ | ⟨hcut, -⟩
    · exact Or.inr ⟨id, hresult⟩
    · exact Or.inl hcut
  · intro henough
    rcases hend with ⟨result, hresult, id, rfl⟩ | ⟨-, hshort⟩
    · exact ⟨id, hresult⟩
    · omega

/-- Three integers of all signs, as a text. -/
theorem Session.map_squares_signs : ∃ (s : Session) (m₁ m₂ : Machine),
    Session.start 100 ⟨[], []⟩ .absent (Machine.new .warning) = (.value s, m₁) ∧
    s.eval 100 mapSource m₁ = (.value .noValue, m₂) ∧
    ∃ id, (s.eval 40 (String.ofList (squaring [3, -2, 0]).source) m₂).1 =
      .value (.list (some id) [.int 9, .int 4, .int 0]) := by
  have hshort : ∀ n ∈ ([3, -2, 0] : List Int), ¬ IsLong n := by
    simp only [IsLong]
    decide
  have hlimit : 8 ≤ 100 := by decide
  obtain ⟨log, hdefine⟩ := evalSource_mapSource hlimit 0
    (Machine.new .warning).withStandard.store (Machine.new .warning).withStandard.log
  have hstart : Session.start 100 ⟨[], []⟩ .absent (Machine.new .warning) =
      (.value ⟨0⟩, (Machine.new .warning).withStandard) := rfl
  obtain ⟨-, hreturns, -⟩ := Session.map_squares hstart hdefine [3, -2, 0] 40 _ (Or.inr ⟨rfl, hshort⟩)
  exact ⟨⟨0⟩, _, _, hstart, hdefine, hreturns (by decide)⟩

example : String.ofList (squaring [1, 2, 3, 4]).source =
    "(map1 (lambda (x) (* x x)) (list 1 2 3 4))" := by
  rfl

end Lisplet
