import ValueHeap.Numeric.Binary64

/-!
# Numbers modulo `2 ^ 61 - 1`

Equal numbers hash equal whatever their type, so the hash of a number is computed from the number:
it is the residue of its magnitude modulo the prime `2 ^ 61 - 1`, under its sign.  A fraction has a
residue too, since `2` is invertible modulo that prime; in fact multiplying by a power of two is
rotating the 61 bits of a residue, so the residue of a float takes no division.

## What is here

* `Residue.ofInt` — the signed residue of an integer.
* `Residue.ofFloat` — the signed residue of a float: an integral float below `9.2e18` is reduced
  directly, and any other has its significand folded in 28 bits at a time (`Residue.fold`) and is
  then rotated by its exponent.  The infinities have a residue of their own, and a NaN has zero.
-/

set_option autoImplicit false

namespace ValueHeap.Residue

/-- The prime modulus. -/
def modulus : Nat := 0x1fffffffffffffff

/-- The residue of an integer's magnitude, under the integer's sign. -/
def ofInt (n : Int) : Int :=
  if n < 0 then -((n.natAbs % modulus : Nat) : Int) else (n.natAbs % modulus : Nat)

/-- Rotation of a 61-bit word to the left: multiplication by `2 ^ k` modulo the modulus. -/
def rotate (acc k : Nat) : Nat :=
  (acc <<< k) % 0x2000000000000000 + acc >>> (61 - k)

/-- One step of the fold: the residue so far is multiplied by `2 ^ 28` and takes in a chunk. -/
def absorb (acc chunk : Nat) : Nat :=
  let sum := rotate acc 28 + chunk
  if modulus ≤ sum then sum - modulus else sum

/-- Folds in the fraction `m / 2 ^ w`, 28 bits at a time from the top, until nothing is left.
The exponent `e` goes down with every chunk, so that the number under way stays the same.  What is
left after a chunk is below `2 ^ (w - 28)`. -/
def fold (acc : Nat) (e : Int) (w m : Nat) : Nat × Int :=
  if m = 0 then (acc, e)
  else fold (absorb acc ((m <<< 28) >>> w)) (e - 28) (w - 28) (m % (1 <<< (w - 28)))
termination_by w + m
decreasing_by
  rcases Nat.eq_zero_or_pos w with hw | hw
  · subst hw
    simp only [Nat.zero_sub, Nat.shiftLeft_zero, Nat.mod_one]
    omega
  · have := Nat.mod_le m (1 <<< (w - 28))
    omega

/-- The residue of `m * 2 ^ e` for a positive `m`: the digits of `m` as a fraction between one half
and one, folded in, and then the power of two that is left over. -/
def scaled (m : Nat) (e : Int) : Nat :=
  let width := Nat.log2 m + 1
  let (acc, rest) := fold 0 (e + width) width m
  rotate acc (rest % 61).toNat

/-- The largest magnitude, exclusive, at which an integral float is reduced directly. -/
def directBound : Nat := 9200000000000000000

/-- The residue of a finite float's magnitude. -/
def magnitude (x : Binary64) : Nat :=
  if x.isIntegral && x.abs.floor < directBound then x.abs.floor.natAbs % modulus
  else scaled x.significand x.exponent

/-- The signed residue of a float. -/
def ofFloat (x : Binary64) : Int :=
  if x.isNaN then 0
  else if x.isInfinite then x.signed 314159
  else x.signed (magnitude x)

end ValueHeap.Residue
