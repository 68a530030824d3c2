/-!
# SipHash-1-3

The hash of a byte string: SipHash with one round per word, three closing rounds and a key of
zeros.  A zero key makes the hash of a text the same in every run.
-/

set_option autoImplicit false

namespace ValueHeap.SipHash

/-- The four words of the state. -/
structure State where
  v0 : UInt64
  v1 : UInt64
  v2 : UInt64
  v3 : UInt64

/-- Rotation of a word to the left, for `0 < k < 64`. -/
def rotateLeft (x k : UInt64) : UInt64 :=
  (x <<< k) ||| (x >>> (64 - k))

namespace State

/-- The state under a key of zeros. -/
def start : State :=
  ⟨0x736f6d6570736575, 0x646f72616e646f6d, 0x6c7967656e657261, 0x7465646279746573⟩

/-- One round. -/
def round (s : State) : State :=
  let a := s.v0 + s.v1
  let b := rotateLeft s.v1 13 ^^^ a
  let c := s.v2 + s.v3
  let d := rotateLeft s.v3 16 ^^^ c
  let e := rotateLeft a 32 + d
  let f := c + b
  ⟨e, rotateLeft b 17 ^^^ f, rotateLeft f 32, rotateLeft d 21 ^^^ e⟩

/-- Takes in a word, with one round. -/
def compress (s : State) (word : UInt64) : State :=
  let t := round { s with v3 := s.v3 ^^^ word }
  { t with v0 := t.v0 ^^^ word }

/-- The hash of what was taken in: three rounds, and the four words on top of each other. -/
def finish (s : State) : UInt64 :=
  let t := round (round (round { s with v2 := s.v2 ^^^ 0xff }))
  t.v0 ^^^ t.v1 ^^^ t.v2 ^^^ t.v3

end State

/-- The number that bytes denote, the lowest first. -/
def littleEndian (bytes : List UInt8) : UInt64 :=
  bytes.foldr (fun b acc => (acc <<< 8) ||| b.toUInt64) 0

/-- Takes in every full word of eight bytes, and then the bytes that are left together with the
length of the whole in the top byte. -/
def absorb (length : Nat) (s : State) : List UInt8 → State
  | b0 :: b1 :: b2 :: b3 :: b4 :: b5 :: b6 :: b7 :: rest =>
    absorb length (s.compress (littleEndian [b0, b1, b2, b3, b4, b5, b6, b7])) rest
  | rest => s.compress ((UInt64.ofNat length <<< 56) ||| littleEndian rest)

/-- The hash of a byte string. -/
def digest (bytes : List UInt8) : UInt64 :=
  (absorb bytes.length State.start bytes).finish

end ValueHeap.SipHash
