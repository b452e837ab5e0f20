/-!
# Values

One type serves for programs and for what they compute: a form is a value, and evaluating a form
gives a value. This module has the primitives and keywords of the language by name, the type of
values, and the views of a value that the rest of the library branches on.

Main definitions: `Primitive`, `Keyword`, `Value`, `Value.isTrue`, `Value.number?`.
-/

namespace Lisplet

/-- The built-in procedures. -/
inductive Primitive where
  | add | sub | mul | div
  | not
  | eqNumber | eqIdentity | eqStructure
  | less | greater | lessEq | greaterEq
  | length | cons | car | cdr | list
  | isList | isNull | isSymbol
  deriving DecidableEq, Repr

namespace Primitive

/-- The name a primitive is bound to. -/
def name : Primitive → String
  | .add => "+"
  | .sub => "-"
  | .mul => "*"
  | .div => "/"
  | .not => "not"
  | .eqNumber => "="
  | .eqIdentity => "eq?"
  | .eqStructure => "equal?"
  | .less => "<"
  | .greater => ">"
  | .lessEq => "<="
  | .greaterEq => ">="
  | .length => "length"
  | .cons => "cons"
  | .car => "car"
  | .cdr => "cdr"
  | .list => "list"
  | .isList => "list?"
  | .isNull => "null?"
  | .isSymbol => "symbol?"

/-- The number of arguments a primitive takes, or `none` if it takes any number. -/
def arity : Primitive → Option Nat
  | .not | .length | .car | .cdr | .isList | .isNull | .isSymbol => some 1
  | .list => none
  | _ => some 2

/-- Every primitive, in the order in which the standard frame binds them. -/
def all : List Primitive :=
  [.add, .sub, .mul, .div, .not, .eqNumber, .eqIdentity, .eqStructure, .less, .greater, .lessEq,
    .greaterEq, .length, .cons, .car, .cdr, .list, .isList, .isNull, .isSymbol]

/-- The primitive of a name. -/
def ofName? (x : String) : Option Primitive :=
  all.find? (·.name == x)

/-- The table is complete. -/
theorem mem_all (p : Primitive) : p ∈ all := by
  cases p <;> decide

end Primitive

/-- The symbols that introduce a form with an evaluation rule of its own. -/
inductive Keyword where
  | quote
  | cond
  | assign
  | define
  | lambda
  | begin
  deriving DecidableEq, Repr

namespace Keyword

/-- The symbol that a keyword is written as. -/
def name : Keyword → String
  | .quote => "quote"
  | .cond => "if"
  | .assign => "set!"
  | .define => "define"
  | .lambda => "lambda"
  | .begin => "begin"

/-- Every keyword. -/
def all : List Keyword :=
  [.quote, .cond, .assign, .define, .lambda, .begin]

/-- The keyword that a symbol's name stands for. -/
def ofName? (x : String) : Option Keyword :=
  all.find? (·.name == x)

end Keyword

/-- Where a frame stands in the store. -/
abbrev FrameId := Nat

/-- What tells one closure, or one list made at run time, from another. -/
abbrev ObjectId := Nat

/-- Forms and the values they evaluate to. -/
inductive Value where
  /-- What a form evaluated only for its effect gives. -/
  | noValue
  | bool (b : Bool)
  | int (n : Int)
  | symbol (name : String)
  /-- A list. One that a program makes as it runs has an identity; one that is written in a program
  has none. -/
  | list (id : Option ObjectId) (items : List Value)
  /-- A primitive of a global frame; each global frame has primitives of its own. -/
  | primitive (p : Primitive) (home : FrameId)
  /-- A procedure made by a `lambda` form: its parameters, its body, and the frame it was made in.
  No two closures of a store share an identity. -/
  | closure (id : ObjectId) (formals : List Value) (body : Value) (frame : FrameId)
  /-- A text of the host; no program can make one, but a program can be handed one. -/
  | text (s : String)
  deriving Inhabited

/-- The types of values, as comparisons report them. -/
inductive Kind where
  | noValue | bool | int | symbol | list | primitive | closure | text
  deriving DecidableEq, Repr

/-- The name of a type in messages. -/
def Kind.label : Kind → String
  | .noValue => "NoValueType"
  | .bool => "bool"
  | .int => "int"
  | .symbol => "Symbol"
  | .list => "list"
  | .primitive => "Primitive"
  | .closure => "Closure"
  | .text => "str"

namespace Value

/-- A list as it is written in a program. -/
@[match_pattern]
abbrev literal (items : List Value) : Value :=
  .list none items

/-- The type of a value. -/
def kind : Value → Kind
  | .noValue => .noValue
  | .bool _ => .bool
  | .int _ => .int
  | .symbol _ => .symbol
  | .list .. => .list
  | .primitive .. => .primitive
  | .closure .. => .closure
  | .text _ => .text

/-- Conditions fail on false and on the absence of a value; everything else holds, `0` and the
empty list included. -/
def isTrue : Value → Bool
  | .bool b => b
  | .noValue => false
  | _ => true

/-- The number that a value counts as in equality and ordering, where booleans are zero and one. -/
def number? : Value → Option Int
  | .int n => some n
  | .bool b => some (if b then 1 else 0)
  | _ => none

/-- The name of a symbol. -/
def name? : Value → Option String
  | .symbol x => some x
  | _ => none

/-- The keyword that a value names when it stands first in a list. -/
def keyword? : Value → Option Keyword
  | .symbol x => Keyword.ofName? x
  | _ => none

/-- Whether a value is a list. -/
def isList : Value → Bool
  | .list .. => true
  | _ => false

/-- A value as a list: itself if it is one, and otherwise the list that holds it. -/
def asList : Value → List Value
  | .list _ items => items
  | v => [v]

/-- The body of a closure made from the forms after its parameters: one form stands for itself,
several are evaluated in turn. -/
def bodyOf : List Value → Value
  | [form] => form
  | forms => .literal (.symbol Keyword.begin.name :: forms)

end Value

end Lisplet
