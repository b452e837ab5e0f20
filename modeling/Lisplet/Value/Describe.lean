import Lisplet.Outcome

/-!
# Descriptions of values

The text by which messages, log records and frames show a value: symbols and host texts are quoted,
lists stand in brackets, procedures give their parameters. A description fails if it meets an
integer too long to be written, and it uses one unit of depth for each level of nesting.

Main definitions: `Value.describe`, `Value.title`.
-/

namespace Lisplet

/-- The decimal text of an integer, or a fault if it is too long. -/
def writeInt (n : Int) : Outcome (List Char) :=
  match Text.Numeral.writeInt? n with
  | some ds => .value ds
  | none => .fault .longInteger

/-- The description of a primitive: its name and its arity. -/
def Primitive.describe (p : Primitive) : String :=
  let arity := match p.arity with
    | some n => Fault.count n
    | none => "*"
  "<Primitive " ++ p.name ++ "/" ++ arity ++ ">"

/-- A symbol as descriptions show it. -/
def describeSymbol (x : String) : String :=
  "Symbol(" ++ Text.quote x ++ ")"

/-- A list as descriptions show it, from the descriptions of its items. -/
def describeItems (items : List String) : String :=
  "[" ++ ", ".intercalate items ++ "]"

/-- A closure as descriptions show it, from the titles of its parameters. -/
def describeClosure (formals : List String) : String :=
  "<Closure (" ++ " ".intercalate formals ++ ")>"

/-- What a symbol or a host text holds. -/
def Value.ownText? : Value → Option String
  | .symbol x => some x
  | .text s => some s
  | _ => none

mutual

/-- The description of a value, within a depth limit. -/
def Value.describe (limit : Nat) : Value → Outcome String
  | .noValue => pure "NoValue"
  | .bool b => pure (if b then "True" else "False")
  | .int n => do
    let ds ← writeInt n
    pure (String.ofList ds)
  | .symbol x => pure (describeSymbol x)
  | .list _ items =>
    match limit with
    | 0 => .exhausted
    | limit + 1 => do
      let shown ← describeAll limit items
      pure (describeItems shown)
  | .primitive p _ => pure p.describe
  | .closure _ formals _ _ =>
    match limit with
    | 0 => .exhausted
    | limit + 1 => do
      let shown ← titleAll limit formals
      pure (describeClosure shown)
  | .text s => pure (Text.quote s)

/-- The descriptions of values, in order. -/
def describeAll (limit : Nat) : List Value → Outcome (List String)
  | [] => pure []
  | v :: vs => do
    let s ← v.describe limit
    let ss ← describeAll limit vs
    pure (s :: ss)

/-- The titles of values, in order. -/
def titleAll (limit : Nat) : List Value → Outcome (List String)
  | [] => pure []
  | v :: vs => do
    let s ← match v.ownText? with
      | some s => pure s
      | none => v.describe limit
    let ss ← titleAll limit vs
    pure (s :: ss)

end

/-- How a value is named in running text: symbols and host texts by what they hold, everything else
by its description. -/
def Value.title (limit : Nat) (v : Value) : Outcome String :=
  match v.ownText? with
  | some s => pure s
  | none => v.describe limit

end Lisplet
