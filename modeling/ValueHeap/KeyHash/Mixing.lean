import ValueHeap.KeyHash.SipHash

/-!
# Mixing the hashes of a sequence

The hash of a tuple is mixed from the hashes of its items and their number, by the accumulator of
xxHash: each item is added under one prime, rotated and multiplied by another, so that the place of
an item matters.
-/

set_option autoImplicit false

namespace ValueHeap.Mixing

/-- The multiplier of the accumulator. -/
def prime1 : UInt64 := 11400714785074694791

/-- The multiplier of an item. -/
def prime2 : UInt64 := 14029467366897019727

/-- Where the accumulator starts. -/
def prime5 : UInt64 := 2870177450012600261

/-- Takes in the hash of the next item. -/
def push (acc item : UInt64) : UInt64 :=
  SipHash.rotateLeft (acc + item * prime2) 31 * prime1

/-- The hash of the accumulated items.  The word of `-1` is not used. -/
def finish (acc : UInt64) (length : Nat) : UInt64 :=
  let word := acc + (UInt64.ofNat length ^^^ (prime5 ^^^ 3527539))
  if word = -1 then 1546275796 else word

/-- The hash of a sequence from the hashes of its items. -/
def sequence (items : List UInt64) : UInt64 :=
  finish (items.foldl push prime5) items.length

end ValueHeap.Mixing
