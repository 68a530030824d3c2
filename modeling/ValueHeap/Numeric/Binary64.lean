/-!
# Double precision floats as bit patterns

A float is kept as its 64 bits and nothing else: signs of zero and payloads of NaN survive every
operation that only moves a float, and whatever the library computes from one is computed in exact
integer arithmetic.

## What is here

* `Binary64` and its fields: the sign, the biased exponent (`Binary64.field`) and the fraction.
* `Binary64.significand` and `Binary64.exponent` — a finite float is
  `± significand * 2 ^ exponent`.
* `Binary64.floor` and `Binary64.isIntegral` — the integer at or below a finite float, and whether
  it is the float itself.
* `Binary64.ofInt` — the float of an integer that is small enough to have one.
* `Binary64.order?` — the order of the reals and the infinities, with the two zeros equal and NaN
  comparable with nothing.
* `Binary64.bytes` — the eight bytes, lowest first.
-/

set_option autoImplicit false

namespace ValueHeap

/-- A double precision float, as the word that encodes it. -/
structure Binary64 where
  /-- Sign, exponent and fraction, from the top bit down. -/
  bits : UInt64
deriving DecidableEq

namespace Binary64

/-- Positive zero. -/
def zero : Binary64 := ⟨0⟩

/-- Whether the sign bit is set. -/
def isNegative (x : Binary64) : Bool :=
  decide (0x8000000000000000 ≤ x.bits.toNat)

/-- The biased exponent, bits 52 to 62. -/
def field (x : Binary64) : Nat :=
  x.bits.toNat / 0x10000000000000 % 0x800

/-- The stored digits of the significand, bits 0 to 51. -/
def fraction (x : Binary64) : Nat :=
  x.bits.toNat % 0x10000000000000

/-- Not a number: the largest exponent with a fraction. -/
def isNaN (x : Binary64) : Bool :=
  x.field == 2047 && x.fraction != 0

/-- An infinity: the largest exponent without a fraction. -/
def isInfinite (x : Binary64) : Bool :=
  x.field == 2047 && x.fraction == 0

/-- Neither an infinity nor a NaN. -/
def isFinite (x : Binary64) : Bool :=
  x.field != 2047

/-- The significand of a finite float as an integer.  A zero exponent field has no hidden bit. -/
def significand (x : Binary64) : Nat :=
  if x.field = 0 then x.fraction else 0x10000000000000 + x.fraction

/-- The power of two that scales the significand of a finite float. -/
def exponent (x : Binary64) : Int :=
  if x.field = 0 then -1074 else (x.field : Int) - 1075

/-- The float without its sign. -/
def abs (x : Binary64) : Binary64 :=
  ⟨x.bits &&& 0x7fffffffffffffff⟩

/-- The integer under the sign of the float. -/
def signed (x : Binary64) (magnitude : Nat) : Int :=
  if x.isNegative then -(magnitude : Int) else magnitude

/-- The greatest integer at or below a finite float.  A float whose exponent is not negative is
an integer; otherwise the digits below the point are shifted out, which rounds downwards. -/
def floor (x : Binary64) : Int :=
  match x.exponent with
  | .ofNat e => x.signed (x.significand <<< e)
  | .negSucc e => x.signed x.significand >>> (e + 1)

/-- Whether a finite float is an integer. -/
def isIntegral (x : Binary64) : Bool :=
  match x.exponent with
  | .ofNat _ => true
  | .negSucc e => x.significand % (1 <<< (e + 1)) == 0

/-- Every integer below this bound in magnitude is the exact value of a float. -/
def exactBound : Nat := 0x20000000000000

/-- The float of an integer below `exactBound` in magnitude.  The leading digit is the hidden one,
so it is counted by the exponent. -/
def ofInt (n : Int) : Binary64 :=
  if n = 0 then zero
  else
    let digits := n.natAbs.log2
    let sign := if n < 0 then 0x8000000000000000 else 0
    ⟨.ofNat (sign + (digits + 1022) * 0x10000000000000 + n.natAbs <<< (52 - digits))⟩

/-- The place of a float that is not a NaN in the order of all of them: the word without its
sign bit, counted downwards for a negative float. -/
def place (x : Binary64) : Int :=
  x.signed (x.bits.toNat % 0x8000000000000000)

/-- The order of two floats, which a NaN on either side does not have. -/
def order? (x y : Binary64) : Option Ordering :=
  if x.isNaN || y.isNaN then none else some (compare x.place y.place)

/-- Equality as numbers: the two zeros are equal, and no NaN equals anything. -/
def numEq (x y : Binary64) : Bool :=
  x.order? y == some .eq

/-- The eight bytes of the word, lowest first. -/
def bytes (x : Binary64) : List UInt8 :=
  (List.range 8).map fun i => UInt8.ofNat (x.bits.toNat >>> (8 * i))

theorem order?_eq_none_iff {x y : Binary64} :
    x.order? y = none ↔ x.isNaN = true ∨ y.isNaN = true := by
  by_cases h : x.isNaN = true <;> by_cases h' : y.isNaN = true <;> simp [order?, h, h']

end Binary64

end ValueHeap
