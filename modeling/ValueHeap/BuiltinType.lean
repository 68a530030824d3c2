/-!
# The builtin types

A value has a type, and a type is itself a value.  The builtin types are a closed list of sixteen,
and everything the rest of the library asks of them is answered here.

## What is here

* `BuiltinType` — the sixteen types, in the order in which the comparison fallback ranks them
  (`BuiltinType.rank`).
* `BuiltinType.name` and `BuiltinType.ofName?` — the spelling of a type, and the way back.
* `BuiltinType.base` and `BuiltinType.isSubtypeOf` — the inheritance between them: `bool` below
  `int`, everything below `object`, and nothing else.
-/

set_option autoImplicit false

namespace ValueHeap

/-- The builtin types, in the order that ranks two types that nothing else tells apart. -/
inductive BuiltinType where
  | object
  | type
  | noneType
  | ellipsis
  | bool
  | int
  | float
  | complex
  | str
  | bytes
  | list
  | tuple
  | dict
  | set
  | range
  | slice
deriving DecidableEq

namespace BuiltinType

/-- Every builtin type, in rank order. -/
def all : List BuiltinType :=
  [object, type, noneType, ellipsis, bool, int, float, complex, str, bytes, list, tuple, dict,
    set, range, slice]

/-- The place of a type in `all`. -/
def rank : BuiltinType → Nat
  | object => 0
  | type => 1
  | noneType => 2
  | ellipsis => 3
  | bool => 4
  | int => 5
  | float => 6
  | complex => 7
  | str => 8
  | bytes => 9
  | list => 10
  | tuple => 11
  | dict => 12
  | set => 13
  | range => 14
  | slice => 15

/-- The spelling of a type. -/
def name : BuiltinType → String
  | object => "object"
  | type => "type"
  | noneType => "NoneType"
  | ellipsis => "ellipsis"
  | bool => "bool"
  | int => "int"
  | float => "float"
  | complex => "complex"
  | str => "str"
  | bytes => "bytes"
  | list => "list"
  | tuple => "tuple"
  | dict => "dict"
  | set => "set"
  | range => "range"
  | slice => "slice"

/-- The type that is spelled so, if there is one. -/
def ofName? (text : String) : Option BuiltinType :=
  all.find? fun ty => ty.name == text

/-- Whether the values of the type are numbers.  Numbers come before everything but `None` in the
comparison fallback. -/
def isNumeric : BuiltinType → Bool
  | bool | int | float | complex => true
  | _ => false

/-- The type directly above, which only `object` lacks. -/
def base : BuiltinType → Option BuiltinType
  | object => none
  | bool => some int
  | _ => some object

/-- Whether `other` is the type itself or lies above it.  No chain of bases is longer than that
of `bool`. -/
def isSubtypeOf (ty other : BuiltinType) : Bool :=
  ty == other || ty.base == some other || (ty.base.bind base) == some other

instance : Ord BuiltinType := ⟨fun a b => compare a.rank b.rank⟩

theorem all_getElem?_rank (ty : BuiltinType) : all[ty.rank]? = some ty := by
  cases ty <;> rfl

/-- No two types share a rank. -/
theorem rank_inj {a b : BuiltinType} (h : a.rank = b.rank) : a = b :=
  Option.some.inj (by rw [← all_getElem?_rank a, ← all_getElem?_rank b, h])

theorem ofName?_name (ty : BuiltinType) : ofName? ty.name = some ty := by
  cases ty <;> rfl

/-- No two types share a spelling. -/
theorem name_inj {a b : BuiltinType} (h : a.name = b.name) : a = b :=
  Option.some.inj (by rw [← ofName?_name a, ← ofName?_name b, h])

theorem isSubtypeOf_refl (ty : BuiltinType) : ty.isSubtypeOf ty = true := by
  cases ty <;> rfl

theorem isSubtypeOf_object (ty : BuiltinType) : ty.isSubtypeOf object = true := by
  cases ty <;> rfl

end BuiltinType

end ValueHeap
