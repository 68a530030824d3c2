import ValueHeap.BuiltinType
import ValueHeap.Numeric.Binary64

/-!
# Objects

An object is plain data: a value written out in full, without a heap.  Objects are what values are
built from, and what a snapshot of a value gives back.

## What is here

* `Object` — the data.  The entries of a dict and the elements of a set are listed in order, and
  may repeat.  A stand-in takes the place of what has no data of its own, and no value is built
  from it.
* `Object.typeName` — the type of the value that an object describes.
* `Object.same` — equality part by part: floats are equal as numbers, and everything else is equal
  when it is written the same way.
-/

set_option autoImplicit false

namespace ValueHeap

/-- A value written out in full. -/
inductive Object where
  | none
  | ellipsis
  | bool (b : Bool)
  /-- A machine integer. -/
  | int (n : Int64)
  /-- An integer of any size. -/
  | bigInt (n : Int)
  | float (x : Binary64)
  | complex (re im : Binary64)
  | str (text : String)
  | bytes (data : List UInt8)
  | list (items : List Object)
  | tuple (items : List Object)
  | dict (entries : List (Object × Object))
  | set (elements : List Object)
  | range (start stop step : Int64)
  | slice (start stop step : Object)
  /-- A builtin type. -/
  | type (ty : BuiltinType)
  /-- The text that stands for something else. -/
  | standIn (text : String)

namespace Object

instance : Inhabited Object := ⟨none⟩

/-- The name of the type of the value that an object describes. -/
def typeName : Object → String
  | none => "NoneType"
  | ellipsis => "ellipsis"
  | bool _ => "bool"
  | int _ | bigInt _ => "int"
  | float _ => "float"
  | complex .. => "complex"
  | str _ => "str"
  | bytes _ => "bytes"
  | list _ => "list"
  | tuple _ => "tuple"
  | dict _ => "dict"
  | set _ => "set"
  | range .. => "range"
  | slice .. => "slice"
  | type _ => "type"
  | standIn _ => "repr"

mutual

/-- Whether two objects are equal part by part.  Floats are equal as numbers. -/
def same : Object → Object → Bool
  | none, none => true
  | ellipsis, ellipsis => true
  | bool a, bool b => a == b
  | int m, int n => m == n
  | bigInt m, bigInt n => m == n
  | float x, float y => x.numEq y
  | complex a b, complex c d => a.numEq c && b.numEq d
  | str s, str t => s == t
  | bytes s, bytes t => s == t
  | list xs, list ys => allSame xs ys
  | tuple xs, tuple ys => allSame xs ys
  | dict xs, dict ys => entriesSame xs ys
  | set xs, set ys => allSame xs ys
  | range a b c, range d e f => a == d && b == e && c == f
  | slice a b c, slice d e f => same a d && same b e && same c f
  | type s, type t => s == t
  | standIn s, standIn t => s == t
  | _, _ => false

/-- Whether two lists of objects are equal item by item. -/
def allSame : List Object → List Object → Bool
  | [], [] => true
  | x :: xs, y :: ys => same x y && allSame xs ys
  | _, _ => false

/-- Whether two lists of entries are equal entry by entry. -/
def entriesSame : List (Object × Object) → List (Object × Object) → Bool
  | [], [] => true
  | (k, v) :: xs, (l, w) :: ys => same k l && same v w && entriesSame xs ys
  | _, _ => false

end

end Object

end ValueHeap
