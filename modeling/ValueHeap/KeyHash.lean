import ValueHeap.Heap.TypeRef
import ValueHeap.KeyHash.Mixing
import ValueHeap.KeyHash.Residue

/-!
# The hash of a value as a key

Dicts and sets find their keys by a 64-bit hash.  Values that are equal hash equal: numbers by their
residue, texts and byte strings by their bytes, ranges by the parts that matter for the sequence
they denote, tuples by their items, and everything that is only equal to itself by its identity.
What can change has no hash, nor has a slice.

## What is here

* `KeyHash.sealed` — the word of a hash, which is never that of `-1`.
* `KeyHash.ofInt`, `KeyHash.ofFloat`, `KeyHash.ofComplex`, `KeyHash.ofBytes`, `KeyHash.ofIdentity`,
  `KeyHash.ofRange` — the hashes of values without parts.
* `Heap.keyHash` — the hash of a value, if it has one.
-/

set_option autoImplicit false

namespace ValueHeap

namespace KeyHash

/-- The word that stands for a hash.  The word of `-1` is kept out, and `-2` stands in for it. -/
def sealed (word : UInt64) : UInt64 :=
  if word = -1 then -2 else word

/-- The hash of an integer. -/
def ofInt (n : Int) : UInt64 :=
  sealed (UInt64.ofInt (Residue.ofInt n))

/-- The hash of a float. -/
def ofFloat (x : Binary64) : UInt64 :=
  sealed (UInt64.ofInt (Residue.ofFloat x))

/-- The hash of a complex number.  An imaginary part of zero adds nothing. -/
def ofComplex (re im : Binary64) : UInt64 :=
  sealed (UInt64.ofInt (Residue.ofFloat re) + 1000003 * UInt64.ofInt (Residue.ofFloat im))

/-- The hash of a byte string.  The empty one hashes to zero. -/
def ofBytes (data : List UInt8) : UInt64 :=
  if data.isEmpty then 0 else sealed (SipHash.digest data)

/-- The hash of a text, that of its UTF-8 bytes. -/
def ofText (text : String) : UInt64 :=
  ofBytes text.toUTF8.data.toList

/-- The hash of what is only equal to itself: the bits of its identity, rotated so that the low
ones differ. -/
def ofIdentity (id : Identity) : UInt64 :=
  sealed (SipHash.rotateLeft id.hashBits 60)

/-- The hash of a range, mixed from its length, its start and its step.  `None` takes the place of
a start that no term has and of a step that no two terms have between them. -/
def ofRange (p : Progression) : UInt64 :=
  let absent := ofIdentity Value.none.identity
  Mixing.sequence
    [ofInt (min (p.length : Int) 0x7fffffffffffffff),
      if p.length = 0 then absent else ofInt p.start.toInt,
      if p.length ≤ 1 then absent else ofInt p.step.toInt]

/-- The hashes of several values, up to the first one that has none. -/
def all (hash : Value → Except Fault (Option UInt64)) :
    List Value → Except Fault (Option (List UInt64))
  | [] => .ok (some [])
  | v :: rest =>
    match hash v with
    | .error f => .error f
    | .ok none => .ok none
    | .ok (some word) => (all hash rest).map fun words => words.map (word :: ·)

/-- The hash of contents in a slot, from the hashes of their parts. -/
def ofPayload (hash : Value → Except Fault (Option UInt64)) (s : Slot) :
    Payload → Except Fault (Option UInt64)
  | .str text => .ok (some (ofText text))
  | .bytes data => .ok (some (ofBytes data))
  | .longInt n => .ok (some (ofInt n))
  | .complex re im => .ok (some (ofComplex re im))
  | .tuple items => (all hash items).map fun words => words.map Mixing.sequence
  | .range p => .ok (some (ofRange p))
  | .userClass .. | .userInstance _ => .ok (some (ofIdentity (.heap s)))
  | .list _ | .dict _ | .set _ | .slice .. => .ok none

end KeyHash

namespace Heap

/-- The hash of a value whose tuples nest no deeper than `levels`. -/
def keyHashWithin (h : Heap) : Nat → Value → Except Fault (Option UInt64)
  | _, .bool b => .ok (some (KeyHash.ofInt (if b then 1 else 0)))
  | _, .int n => .ok (some (KeyHash.ofInt n.toInt))
  | _, .float x => .ok (some (KeyHash.ofFloat x))
  | _, .none => .ok (some (KeyHash.ofIdentity Value.none.identity))
  | _, .ellipsis => .ok (some (KeyHash.ofIdentity Value.ellipsis.identity))
  | _, .builtin ty => .ok (some (KeyHash.ofIdentity (Value.builtin ty).identity))
  | 0, .ref _ => .error .endless
  | levels + 1, .ref s =>
    match h.read s with
    | .ok p => KeyHash.ofPayload (h.keyHashWithin levels) s p
    | .error f => .error f

/-- The hash of a value as a key, if it has one.  Tuples within tuples take a slot each, so a nest
of more of them than there are slots has no end. -/
def keyHash (h : Heap) (v : Value) : Except Fault (Option UInt64) :=
  h.keyHashWithin (h.cells.size + 1) v

end Heap

end ValueHeap
