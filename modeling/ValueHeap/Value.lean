import ValueHeap.BuiltinType
import ValueHeap.Numeric.Binary64
import ValueHeap.Numeric.Progression
import ValueHeap.Text.Decimal

/-!
# Values and what a slot holds

A value is small: a singleton, a truth value, a machine integer, a float, a builtin type, or a
reference to a slot of the heap.  Everything larger is the payload of a slot, and a payload refers
to its parts by values again.

## What is here

* `Value` and its `Identity`, the notion of "the same value" that needs no look at the heap.
* `HashedKey` and `Entry` — a key of a dict or an element of a set with the hash that was computed
  when it went in, and a key with the value under it.
* `Payload` — the twelve kinds of contents of a slot, with the slots it refers to
  (`Payload.children`), in the order in which they are released, and its size in bytes
  (`Payload.size`).
-/

set_option autoImplicit false

namespace ValueHeap

/-- The number of a slot of the heap. -/
abbrev Slot := Nat

/-! ## Values -/

/-- A value. -/
inductive Value where
  | none
  | ellipsis
  | bool (b : Bool)
  | int (n : Int64)
  | float (x : Binary64)
  /-- A builtin type, used as a value. -/
  | builtin (ty : BuiltinType)
  /-- A reference to a slot. -/
  | ref (slot : Slot)
deriving DecidableEq

/-- What makes a value the value that it is: its type and its bits, or its slot. -/
inductive Identity where
  | immediate (ty : BuiltinType) (bits : UInt64)
  | heap (slot : Slot)
deriving DecidableEq

namespace Identity

/-- Identities in order: immediate values by type and then by bits, and after them the slots. -/
def order : Identity → Identity → Ordering
  | immediate s x, immediate t y => (compare s.rank t.rank).then (compare x.toNat y.toNat)
  | immediate .., heap _ => .lt
  | heap _, immediate .. => .gt
  | heap m, heap n => compare m n

/-- A word made from an identity, to be hashed. -/
def hashBits : Identity → UInt64
  | immediate ty bits => bits ^^^ (UInt64.ofNat ty.rank <<< 56)
  | heap slot => UInt64.ofNat slot <<< 4

end Identity

namespace Value

/-- The identity of a value. -/
def identity : Value → Identity
  | none => .immediate .noneType 0
  | ellipsis => .immediate .ellipsis 0
  | bool b => .immediate .bool (if b then 1 else 0)
  | int n => .immediate .int n.toUInt64
  | float x => .immediate .float x.bits
  | builtin ty => .immediate .type (UInt64.ofNat ty.rank)
  | ref slot => .heap slot

/-- Whether two values are the same value. -/
def isIdentical (a b : Value) : Bool :=
  a.identity == b.identity

/-- The slot that a value refers to. -/
def slot? : Value → Option Slot
  | ref slot => some slot
  | _ => Option.none

theorem isIdentical_refl (v : Value) : v.isIdentical v = true := by
  simp [isIdentical]

theorem isIdentical_comm (a b : Value) : a.isIdentical b = b.isIdentical a := by
  simp only [isIdentical, Bool.beq_comm]

end Value

/-! ## Parts of dicts and sets -/

/-- A key or an element, with its hash at the time it went in. -/
structure HashedKey where
  value : Value
  hash : UInt64
deriving DecidableEq

/-- A key of a dict with the value under it. -/
structure Entry where
  key : HashedKey
  value : Value
deriving DecidableEq

/-- The values that an entry is made of, the key before the value under it. -/
def Entry.parts (e : Entry) : List Value := [e.key.value, e.value]

/-! ## Payloads -/

/-- The contents of a slot. -/
inductive Payload where
  | str (text : String)
  | bytes (data : List UInt8)
  /-- An integer that is no machine integer. -/
  | longInt (n : Int)
  | complex (re im : Binary64)
  | list (items : List Value)
  | tuple (items : List Value)
  /-- Entries in the order they went in. -/
  | dict (entries : List Entry)
  /-- Elements in the order they went in. -/
  | set (elements : List HashedKey)
  | range (progression : Progression)
  | slice (start stop step : Value)
  /-- A class: its name, and the slot of the class it inherits from. -/
  | userClass (name : String) (base : Option Slot)
  /-- An instance of the class in that slot. -/
  | userInstance (cls : Slot)
deriving DecidableEq

namespace Payload

/-- The name of the kind of contents. -/
def kindName : Payload → String
  | str _ => "Str"
  | bytes _ => "Bytes"
  | longInt _ => "LongInt"
  | complex .. => "Complex"
  | list _ => "List"
  | tuple _ => "Tuple"
  | dict _ => "Dict"
  | set _ => "Set"
  | range _ => "Range"
  | slice .. => "Slice"
  | userClass .. => "Class"
  | userInstance _ => "Instance"

/-- Every kind of contents, by name. -/
def kindNames : List String :=
  ["Str", "Bytes", "LongInt", "Complex", "List", "Tuple", "Dict", "Set", "Range", "Slice",
    "Class", "Instance"]

/-- The values that the contents are made of, in order.  A class and an instance refer to slots
without holding values. -/
def parts : Payload → List Value
  | list items => items
  | tuple items => items
  | dict entries => entries.flatMap Entry.parts
  | set elements => elements.map HashedKey.value
  | slice start stop step => [start, stop, step]
  | _ => []

/-- The slots that the contents refer to, in the order in which they are released. -/
def children : Payload → List Slot
  | userClass _ base => base.toList
  | userInstance cls => [cls]
  | contents => contents.parts.filterMap Value.slot?

/-- Whether the contents are a class. -/
def isClass : Payload → Bool
  | userClass .. => true
  | _ => false

/-- The bytes of a long integer: its own record and its digits. -/
def longIntSize (n : Int) : Nat :=
  32 + (Decimal.bitLength n.natAbs + 7) / 8

/-- The size of the contents in bytes: a record of the same size for all of them, and what they
hold beside it. -/
def size (p : Payload) : Nat :=
  64 +
    match p with
    | str text => text.utf8ByteSize
    | bytes data => data.length
    | longInt n => longIntSize n
    | list items => 16 * items.length
    | tuple items => 16 * items.length
    | dict entries => 48 * entries.length
    | set elements => 32 * elements.length
    | userClass name _ => name.utf8ByteSize
    | complex .. | range _ | slice .. | userInstance _ => 0

/-- The length of the contents as a sequence, where they are one.  A text counts characters. -/
def length? : Payload → Option Nat
  | str text => some text.length
  | bytes data => some data.length
  | list items => some items.length
  | tuple items => some items.length
  | dict entries => some entries.length
  | set elements => some elements.length
  | range progression => some progression.length
  | slice .. => some 3
  | longInt _ | complex .. | userClass .. | userInstance _ => none

/-- Whether the contents are an empty sequence, where they are one that can be. -/
def isEmpty? : Payload → Option Bool
  | slice .. => none
  | contents => contents.length?.map (· == 0)

end Payload

end ValueHeap
