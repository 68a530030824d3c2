import ValueHeap.KeyHash
import ValueHeap.Numeric.Number
import ValueHeap.Object.Basic

/-!
# Normal objects

A value does not remember how the object was written that it was built from.  What it does remember
is the normal form of the object: integers that fit a machine integer are machine integers, a
repeated key of a dict keeps its first place and its first form and takes the last value, and a
repeated element of a set is dropped.

Keys are repeated when they are identical, or hash equal and are equal.  All three are spelled out
here for objects, without a heap.  Everything larger than a machine word is built anew each time, so
only objects that need no slot can be identical.

## What is here

* `Object.immediate?`, `Object.number?` and `Object.keyHash` — the value, the number and the hash
  that an object stands for, if it stands for one.
* `Object.identical`, `Object.equal` and `Object.sameKey` — when two keys are one.
* `Object.normal` — the normal form.
* `Object.footprint` — the memory that the value for an object takes.
-/

set_option autoImplicit false

namespace ValueHeap.Object

/-- The value for an object that needs no slot. -/
def immediate? : Object → Option Value
  | none => some .none
  | ellipsis => some .ellipsis
  | bool b => some (.bool b)
  | int n => some (.int n)
  | float x => some (.float x)
  | type ty => some (.builtin ty)
  | _ => Option.none

/-- The number that an object is, if it is one. -/
def number? : Object → Option Number
  | bool b => some (.int (if b then 1 else 0))
  | int n => some (.int n.toInt)
  | bigInt n => some (.int n)
  | float x => some (.float x)
  | complex re im => some (.complex re im)
  | _ => Option.none

/-! ## Keys -/

mutual

/-- The hash of an object as a key.  What can change has none, nor has a slice. -/
def keyHash : Object → Option UInt64
  | none => some (KeyHash.ofIdentity Value.none.identity)
  | ellipsis => some (KeyHash.ofIdentity Value.ellipsis.identity)
  | bool b => some (KeyHash.ofInt (if b then 1 else 0))
  | int n => some (KeyHash.ofInt n.toInt)
  | bigInt n => some (KeyHash.ofInt n)
  | float x => some (KeyHash.ofFloat x)
  | complex re im => some (KeyHash.ofComplex re im)
  | str text => some (KeyHash.ofText text)
  | bytes data => some (KeyHash.ofBytes data)
  | tuple items => (keyHashes items).map Mixing.sequence
  | range start stop step => (Progression.make? start stop step).map KeyHash.ofRange
  | type ty => some (KeyHash.ofIdentity (Value.builtin ty).identity)
  | list _ | dict _ | set _ | slice .. | standIn _ => Option.none

/-- The hashes of several objects, if each of them has one. -/
def keyHashes : List Object → Option (List UInt64)
  | [] => some []
  | o :: rest =>
    match keyHash o with
    | some word => (keyHashes rest).map (word :: ·)
    | Option.none => Option.none

end

/-- Whether two objects are identical: neither needs a slot, and they stand for the same value. -/
def identical (a b : Object) : Bool :=
  match a.immediate?, b.immediate? with
  | some v, some w => v.isIdentical w
  | _, _ => false

/-- Whether two keys are equal that are not both tuples.  Numbers are equal across types, ranges are
equal when they denote the same sequence, and what no rule compares is equal to itself only. -/
def plainEqual (a b : Object) : Bool :=
  match a.number?, b.number? with
  | some m, some n => m.equal n
  | _, _ =>
    match a, b with
    | str s, str t => s == t
    | bytes s, bytes t => s == t
    | range a b c, range d e f =>
      match Progression.make? a b c, Progression.make? d e f with
      | some p, some q => p.order q == .eq
      | _, _ => false
    | a, b => identical a b

mutual

/-- Whether two keys are equal. -/
def equal : Object → Object → Bool
  | tuple xs, tuple ys => equalItems xs ys
  | a, b => plainEqual a b

/-- Whether two lists of keys are as long, and identical or equal item by item. -/
def equalItems : List Object → List Object → Bool
  | [], [] => true
  | x :: xs, y :: ys => (identical x y || equal x y) && equalItems xs ys
  | _, _ => false

end

/-- Whether two objects are one key: they are identical, or have the same hash and are equal. -/
def sameKey (a b : Object) : Bool :=
  identical a b || (a.keyHash == b.keyHash && equal a b)

/-! ## Normal forms -/

/-- One pair more for a dict.  A key that is there keeps its place, and takes the new value. -/
def insertPair (done : List (Object × Object)) (pair : Object × Object) : List (Object × Object) :=
  match done.findIdx? fun e => sameKey e.1 pair.1 with
  | some i => done.modify i fun e => (e.1, pair.2)
  | Option.none => done ++ [pair]

/-- One element more for a set, unless it is there. -/
def addElement (done : List Object) (o : Object) : List Object :=
  if done.any fun e => sameKey e o then done else done ++ [o]

mutual

/-- The normal form of an object. -/
def normal : Object → Object
  | bigInt n => if n = (Int64.ofInt n).toInt then int (Int64.ofInt n) else bigInt n
  | list items => list (normalItems items)
  | tuple items => tuple (normalItems items)
  | dict entries => dict ((normalPairs entries).foldl insertPair [])
  | set elements => set ((normalItems elements).foldl addElement [])
  | slice start stop step => slice (normal start) (normal stop) (normal step)
  | o => o

/-- The normal forms of several objects. -/
def normalItems : List Object → List Object
  | [] => []
  | o :: rest => normal o :: normalItems rest

/-- The normal forms of keys and of the values under them. -/
def normalPairs : List (Object × Object) → List (Object × Object)
  | [] => []
  | (k, v) :: rest => (normal k, normal v) :: normalPairs rest

end

/-! ## Memory -/

mutual

/-- The bytes in all slots of the value for an object.  Repeated keys count each time. -/
def footprint : Object → Nat
  | bigInt n => (Payload.longInt n).size
  | complex re im => (Payload.complex re im).size
  | str text => (Payload.str text).size
  | bytes data => (Payload.bytes data).size
  | list items | tuple items => 64 + 16 * items.length + footprints items
  | dict entries => 64 + 48 * entries.length + pairFootprints entries
  | set elements => 64 + 32 * elements.length + footprints elements
  | range .. => 64
  | slice start stop step => 64 + (footprint start + (footprint stop + footprint step))
  | _ => 0

/-- The bytes for several objects. -/
def footprints : List Object → Nat
  | [] => 0
  | o :: rest => footprint o + footprints rest

/-- The bytes for keys and for the values under them. -/
def pairFootprints : List (Object × Object) → Nat
  | [] => 0
  | (k, v) :: rest => footprint k + (footprint v + pairFootprints rest)

end

end ValueHeap.Object
