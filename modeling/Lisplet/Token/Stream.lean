import Lisplet.Token

/-!
# Token streams

Tokens are taken from the front of a stream, which can show its next token without giving it up: it
then keeps that token in a buffer, from which it is served before any other. Reading a form takes
exactly the tokens of the form; a list nested in `k` others needs a depth limit above `k`.

Main definitions: `TokenStream`, `TokenStream.parse`, `TokenStream.read`, `TokenStream.readAll`, and
`Reader`, which hands out the forms of a stream one by one. The view of a stream is the list of the
tokens that it still has to give, `TokenStream.remaining`.
-/

namespace Lisplet

/-- A source of tokens, with those that were shown already in front of those that are unread. -/
structure TokenStream where
  buffer : List String
  unread : List String
  deriving DecidableEq, Repr

namespace TokenStream

/-- A stream that has shown nothing yet. -/
def ofTokens (tokens : List String) : TokenStream :=
  ⟨[], tokens⟩

/-- The stream of the tokens of a source. -/
def ofSource (source : String) : TokenStream :=
  ofTokens (tokenize source)

/-- The tokens that a stream has still to give. -/
def remaining (s : TokenStream) : List String :=
  s.buffer ++ s.unread

/-- Shows the next token. Only if the buffer is empty is a token moved there. -/
def peek : TokenStream → Option String × TokenStream
  | ⟨t :: b, r⟩ => (some t, ⟨t :: b, r⟩)
  | ⟨[], t :: r⟩ => (some t, ⟨[t], r⟩)
  | ⟨[], []⟩ => (none, ⟨[], []⟩)

/-- Gives up the next token, from the front of the buffer if there is one. -/
def advance : TokenStream → Option String × TokenStream
  | ⟨t :: b, r⟩ => (some t, ⟨b, r⟩)
  | ⟨[], t :: r⟩ => (some t, ⟨[], r⟩)
  | ⟨[], []⟩ => (none, ⟨[], []⟩)

@[simp]
theorem remaining_ofTokens (tokens : List String) : (ofTokens tokens).remaining = tokens := rfl

@[simp]
theorem remaining_ofSource (source : String) : (ofSource source).remaining = tokenize source :=
  remaining_ofTokens (tokenize source)

@[simp]
theorem peek_fst (s : TokenStream) : s.peek.1 = s.remaining.head? := by
  rcases s with ⟨_ | ⟨t, b⟩, _ | ⟨u, r⟩⟩ <;> rfl

@[simp]
theorem remaining_peek (s : TokenStream) : s.peek.2.remaining = s.remaining := by
  rcases s with ⟨_ | ⟨t, b⟩, _ | ⟨u, r⟩⟩ <;> rfl

@[simp]
theorem advance_fst (s : TokenStream) : s.advance.1 = s.remaining.head? := by
  rcases s with ⟨_ | ⟨t, b⟩, _ | ⟨u, r⟩⟩ <;> rfl

@[simp]
theorem remaining_advance (s : TokenStream) : s.advance.2.remaining = s.remaining.tail := by
  rcases s with ⟨_ | ⟨t, b⟩, _ | ⟨u, r⟩⟩ <;> rfl

/-- A token that was shown is given up like one that was not. -/
@[simp]
theorem advance_peek (s : TokenStream) : s.peek.2.advance = s.advance := by
  rcases s with ⟨_ | ⟨t, b⟩, _ | ⟨u, r⟩⟩ <;> rfl

/-- A stream that gives up a token has fewer left. -/
theorem length_remaining_of_advance {s s' : TokenStream} {t : String}
    (h : s.advance = (some t, s')) : s'.remaining.length < s.remaining.length := by
  have h₁ : s.remaining.head? = some t := by rw [← advance_fst, h]
  have h₂ : s'.remaining = s.remaining.tail := by rw [← remaining_advance, h]
  rw [h₂]
  cases hr : s.remaining with
  | nil => simp [hr] at h₁
  | cons _ _ => simp

/-- A list whose items were collected with the last one first. -/
def listOf (items : List Value) : Value :=
  .literal items.reverse

/-- The stream when its next token is due. Inside a list the token is looked at first, to see whether
the list ends. -/
def due (pending : List (List Value)) (s : TokenStream) : TokenStream :=
  match pending with
  | [] => s
  | _ :: _ => s.peek.2

@[simp]
theorem remaining_due (pending : List (List Value)) (s : TokenStream) :
    (s.due pending).remaining = s.remaining := by
  cases pending <;> simp [due]

@[simp]
theorem advance_due (pending : List (List Value)) (s : TokenStream) :
    (s.due pending).advance = s.advance := by
  cases pending <;> simp [due]

/-- Reads on, inside the lists of `pending`: the innermost list comes first, and each holds its
items so far with the last one first. A form that would be nested too deep is left in the stream, and
inside a list its first token has been shown by then. -/
def parseFrom (limit : Nat) (pending : List (List Value)) (s : TokenStream) :
    Outcome Value × TokenStream :=
  match h : (s.due pending).advance with
  | (none, s') => (.fault .unexpectedEnd, s')
  | (some t, s') =>
    have : s'.remaining.length < s.remaining.length := by
      simpa using length_remaining_of_advance h
    if t = ")" then
      match pending with
      | [] => (.fault .unmatchedClose, s')
      | [items] => (.value (listOf items), s')
      | items :: parent :: rest => parseFrom limit ((listOf items :: parent) :: rest) s'
    else if limit ≤ pending.length then
      (.exhausted, s.due pending)
    else if t = "(" then
      parseFrom limit ([] :: pending) s'
    else
      match atom t with
      | .error f => (.fault f, s')
      | .ok v =>
        match pending with
        | [] => (.value v, s')
        | items :: rest => parseFrom limit ((v :: items) :: rest) s'
termination_by s.remaining.length

/-- Reads one form. -/
def parse (limit : Nat) (s : TokenStream) : Outcome Value × TokenStream :=
  s.parseFrom limit []

/-- Reads one form, where reaching the depth limit is a fault. -/
def read (limit : Nat) (s : TokenStream) : Except Fault Value × TokenStream :=
  let (o, s') := s.parse limit
  (o.toExcept .reading, s')

/-- A form takes at least one token. -/
theorem length_remaining_parseFrom {limit : Nat} {pending : List (List Value)} {s : TokenStream}
    {v : Value} (h : (s.parseFrom limit pending).1 = .value v) :
    (s.parseFrom limit pending).2.remaining.length < s.remaining.length := by
  fun_induction parseFrom limit pending s <;> grind

/-- A form that is read takes at least one token. -/
theorem length_remaining_of_read {limit : Nat} {s s' : TokenStream} {v : Value}
    (h : s.read limit = (.ok v, s')) : s'.remaining.length < s.remaining.length := by
  have h₁ : ((s.parseFrom limit []).1.toExcept .reading) = .ok v := congrArg Prod.fst h
  have h₂ : (s.parseFrom limit []).2 = s' := congrArg Prod.snd h
  rw [← h₂]
  refine length_remaining_parseFrom (v := v) ?_
  revert h₁
  cases (s.parseFrom limit []).1 <;> simp [Outcome.toExcept]

end TokenStream

/-- The forms of a source up to its end or its first malformed form, and the fault of the latter. -/
structure Reading where
  forms : List Value
  failure : Option Fault

namespace TokenStream

/-- Reads every form of a stream. -/
def readAll (limit : Nat) (s : TokenStream) : Reading :=
  match s.peek.1 with
  | none => ⟨[], none⟩
  | some _ =>
    match h : s.peek.2.read limit with
    | (.error f, _) => ⟨[], some f⟩
    | (.ok v, s') =>
      have : s'.remaining.length < s.remaining.length := by
        simpa using length_remaining_of_read h
      let later := s'.readAll limit
      ⟨v :: later.forms, later.failure⟩
termination_by s.remaining.length

end TokenStream

/-- Hands out the forms of a stream in turn. Once it has met the end or a malformed form it is
finished, whatever becomes of the stream. -/
structure Reader where
  stream : TokenStream
  finished : Bool

/-- The next form, or `none` if there is none. -/
def Reader.next (limit : Nat) (r : Reader) : Option (Except Fault Value) × Reader :=
  if r.finished then (none, r)
  else
    match r.stream.peek with
    | (none, s) => (none, ⟨s, true⟩)
    | (some _, s) =>
      match s.read limit with
      | (.ok v, s') => (some (.ok v), ⟨s', false⟩)
      | (.error f, s') => (some (.error f), ⟨s', true⟩)

/-- The first form of a source. -/
def readForm (limit : Nat) (source : String) : Except Fault Value :=
  ((TokenStream.ofSource source).read limit).1

/-- Every form of a source. -/
def readForms (limit : Nat) (source : String) : Reading :=
  (TokenStream.ofSource source).readAll limit

end Lisplet
