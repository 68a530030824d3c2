import ValueHeap.Object.Basic
import ValueHeap.Text.Decimal
import ValueHeap.Text.FloatLiteral
import ValueHeap.Text.Quoted

/-!
# Objects as literals

An object is written the way its value would be written in a program: items between brackets with a
comma and a blank between them, texts and byte strings between quotes.

## What is here

* `Object.literal` — the literal of an object.  A tuple of one item has a comma behind it, and an
  empty set, which has no brackets of its own, is written as a call.
* `Object.display` — the literal again, except that a text stands for itself.
-/

set_option autoImplicit false

namespace ValueHeap.Object

/-- Texts with a comma and a blank between them. -/
def commaSeparated (texts : List String) : String :=
  String.intercalate ", " texts

/-- The literal of a range.  A step of one is left out. -/
def rangeLiteral (start stop step : Int64) : String :=
  let parts := [start, stop] ++ if step = 1 then [] else [step]
  "range(" ++ commaSeparated (parts.map fun n => Decimal.text n.toInt) ++ ")"

mutual

/-- The literal of an object. -/
def literal : Object → String
  | none => "None"
  | ellipsis => "Ellipsis"
  | bool b => if b then "True" else "False"
  | int n => Decimal.text n.toInt
  | bigInt n => Decimal.text n
  | float x => FloatLiteral.text x
  | complex re im => FloatLiteral.complexText re im
  | str text => Quoted.text text
  | bytes data => Quoted.bytes data
  | list items => "[" ++ commaSeparated (literals items) ++ "]"
  | tuple items =>
    "(" ++ commaSeparated (literals items) ++ (if items.length = 1 then ",)" else ")")
  | dict entries => "\x7b" ++ commaSeparated (entryLiterals entries) ++ "\x7d"
  | set [] => "set()"
  | set elements => "\x7b" ++ commaSeparated (literals elements) ++ "\x7d"
  | range start stop step => rangeLiteral start stop step
  | slice start stop step =>
    "slice(" ++ commaSeparated [literal start, literal stop, literal step] ++ ")"
  | type ty => "<class '" ++ ty.name ++ "'>"
  | standIn text => text

/-- The literals of several objects. -/
def literals : List Object → List String
  | [] => []
  | o :: rest => literal o :: literals rest

/-- Entries, each a key and a value with a colon between them. -/
def entryLiterals : List (Object × Object) → List String
  | [] => []
  | (k, v) :: rest => (literal k ++ ": " ++ literal v) :: entryLiterals rest

end

/-- The literal of an object, but a text as it is. -/
def display : Object → String
  | str text => text
  | o => literal o

end ValueHeap.Object
