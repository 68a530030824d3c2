/-!
# Integers as decimal text, under a limit on the digits

Writing a very long integer takes time that grows faster than its length, so the text of an integer
can be refused by the number of its digits.  The sign does not count.

## What is here

* `Decimal.leastDigits` — a number of digits that an integer certainly exceeds, read off its length
  in bits without writing it.
* `Decimal.guardedText?` — the text, or nothing when it has too many digits.  An integer that is
  too long by an estimate from its length in bits is refused before it is written.
* `Decimal.text?` — the same with `Decimal.leastDigits` for the estimate.
-/

set_option autoImplicit false

namespace ValueHeap.Decimal

/-- The number of bits of a magnitude. -/
def bitLength (n : Nat) : Nat :=
  if n = 0 then 0 else Nat.log2 n + 1

/-- A number of digits that an integer of so many bits certainly exceeds.  The factor is a little
less than the decimal logarithm of two. -/
def leastDigits (bits : Nat) : Nat :=
  (bits - 1) * 30102 / 100000

/-- The decimal text of an integer. -/
def text (n : Int) : String :=
  if n < 0 then "-" ++ n.natAbs.repr else n.natAbs.repr

/-- The number of decimal digits of an integer. -/
def digitCount (n : Int) : Nat :=
  n.natAbs.repr.length

/-- The decimal text of an integer that has no more digits than the limit allows.  The digits are
estimated first, from the length in bits, and counted only if the estimate is within the limit. -/
def guardedText? (least : Nat → Nat) (limit : Option Nat) (n : Int) : Option String :=
  match limit with
  | none => some (text n)
  | some digits =>
    if digits < least (bitLength n.natAbs) then none
    else if digits < digitCount n then none
    else some (text n)

/-- The decimal text of an integer that has no more digits than the limit allows. -/
def text? (limit : Option Nat) (n : Int) : Option String :=
  guardedText? leastDigits limit n

end ValueHeap.Decimal
