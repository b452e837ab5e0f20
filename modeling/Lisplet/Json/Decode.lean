import Lisplet.Json.Lexeme

/-!
# Decoding JSON

A document is put together from its lexemes by an automaton with a stack of the containers that are
open around the current place. Its state says what must come next. A container inside `k` others
needs a depth limit above `k`.

Main definitions: `State`, `step`, `decode`, `DecodeFault.message`.
-/

namespace Lisplet.Json

/-- Why a text is not decoded. -/
inductive DecodeFault where
  /-- The text is no JSON document; the first problem is at this place. -/
  | malformed (problem : Problem) (place : Nat)
  /-- An integer has too many digits. -/
  | longNumeral (digits : Nat)
  /-- Containers are nested beyond the depth limit. -/
  | tooDeep
  deriving DecidableEq, Repr

/-- A container whose next item or field is under way. -/
inductive Container where
  /-- The items so far, last one first. -/
  | array (items : List Json)
  /-- The fields so far, and the name of the field under way. -/
  | object (fields : List (Letters × Json)) (name : Letters)

/-- What must come next. -/
inductive State where
  /-- A value. -/
  | value
  /-- The first item of an array, or its end. -/
  | firstItem
  /-- The first name of an object, or its end. -/
  | firstName
  /-- The name of a further field. -/
  | name (fields : List (Letters × Json))
  /-- The colon after a name. -/
  | colon (fields : List (Letters × Json)) (name : Letters)
  /-- What may follow a complete value. -/
  | after (v : Json)

/-- A state inside open containers, innermost first. -/
structure Config where
  state : State
  containers : List Container

/-- Opens a container inside others, if the depth limit allows it. -/
def openInside (limit : Nat) (containers : List Container) (first : State) :
    Except DecodeFault Config :=
  if containers.length < limit then .ok ⟨first, containers⟩ else .error .tooDeep

/-- Begins a value inside containers. -/
def beginValue (limit : Nat) (containers : List Container) (place : Nat) :
    Lexeme → Except DecodeFault Config
  | .string s => .ok ⟨.after (.str s), containers⟩
  | .scalar v => .ok ⟨.after v, containers⟩
  | .beginArray => openInside limit containers .firstItem
  | .beginObject => openInside limit containers .firstName
  | _ => .error (.malformed .expectingValue place)

/-- Goes on after a complete value. -/
def afterValue (v : Json) (containers : List Container) (place : Nat) (l : Lexeme) :
    Except DecodeFault Config :=
  match containers, l with
  | [], _ => .error (.malformed .extraData place)
  | .array items :: outer, .comma => .ok ⟨.value, .array (v :: items) :: outer⟩
  | .array items :: outer, .endArray => .ok ⟨.after (.arr (v :: items).reverse), outer⟩
  | .object fields name :: outer, .comma => .ok ⟨.name (setField name v fields), outer⟩
  | .object fields name :: outer, .endObject => .ok ⟨.after (.obj (setField name v fields)), outer⟩
  | _, _ => .error (.malformed .expectingComma place)

/-- One lexeme. -/
def step (limit : Nat) (c : Config) (place : Nat) (l : Lexeme) : Except DecodeFault Config :=
  match c.state, l with
  | .value, l => beginValue limit c.containers place l
  | .firstItem, .endArray => .ok ⟨.after (.arr []), c.containers⟩
  | .firstItem, l => beginValue limit (.array [] :: c.containers) place l
  | .firstName, .endObject => .ok ⟨.after (.obj []), c.containers⟩
  | .firstName, .string s => .ok ⟨.colon [] s, c.containers⟩
  | .name fields, .string s => .ok ⟨.colon fields s, c.containers⟩
  | .firstName, _ | .name _, _ => .error (.malformed .expectingName place)
  | .colon fields s, .colon => .ok ⟨.value, .object fields s :: c.containers⟩
  | .colon .., _ => .error (.malformed .expectingColon place)
  | .after v, l => afterValue v c.containers place l

/-- What it means that lexing stops. -/
def finish (c : Config) (place : Nat) (why : Stop) : Except DecodeFault Json :=
  match c.state, why with
  | .value, .badString problem spot | .firstItem, .badString problem spot
  | .firstName, .badString problem spot | .name _, .badString problem spot =>
    .error (.malformed problem spot)
  | .value, .longNumeral n | .firstItem, .longNumeral n => .error (.longNumeral n)
  | .value, _ | .firstItem, _ => .error (.malformed .expectingValue place)
  | .firstName, _ | .name _, _ => .error (.malformed .expectingName place)
  | .colon .., _ => .error (.malformed .expectingColon place)
  | .after v, why =>
    match c.containers, why with
    | [], .endOfText => .ok v
    | [], _ => .error (.malformed .extraData place)
    | _ :: _, _ => .error (.malformed .expectingComma place)

/-- The document that lexemes complete. -/
def assemble (limit : Nat) (c : Config) : Lexemes → Except DecodeFault Json
  | .stop place why => finish c place why
  | .cons place l rest =>
    match step limit c place l with
    | .error f => .error f
    | .ok c' => assemble limit c' rest

/-- The document that a text stands for. A text must not begin with a byte-order mark. -/
def decode (limit : Nat) (cs : List Char) : Except DecodeFault Json :=
  if cs.head? = some '\ufeff' then .error (.malformed .byteOrderMark 0)
  else assemble limit ⟨.value, []⟩ (lexemes cs)

/-- The line of a place, from one. -/
def lineOf (cs : List Char) (place : Nat) : Nat :=
  (cs.take place).count '\n' + 1

/-- The column of a place, from one. -/
def columnOf (cs : List Char) (place : Nat) : Nat :=
  ((cs.take place).reverse.takeWhile (· != '\n')).length + 1

/-- A number in a message. -/
def decimal (n : Nat) : String :=
  String.ofList (Text.Numeral.ofNat n)

/-- The wording of a fault in a text. -/
def DecodeFault.message (cs : List Char) : DecodeFault → String
  | .malformed problem place =>
    problem.text ++ ": line " ++ decimal (lineOf cs place) ++ " column " ++
      decimal (columnOf cs place) ++ " (char " ++ decimal place ++ ")"
  | .longNumeral digits =>
    "Exceeds the limit (4300 digits) for integer string conversion: value has " ++ decimal digits ++
      " digits; use sys.set_int_max_str_digits() to increase the limit"
  | .tooDeep => ""

end Lisplet.Json
