import ValueHeap.Numeric.Binary64
import ValueHeap.Operator

/-!
# Exact comparison of numbers

Numbers come as integers of any size, floats and complex numbers.  Two of them compare by the
exact numbers they stand for, never by rounding one to the format of the other.

## What is here

* `Number` — an integer, a float or a pair of floats.
* `Number.order?` — the order of two real numbers; a NaN has none.
* `Number.holds` — what an operator says of two numbers.  Complex numbers have an equality and no
  order, and a NaN differs from everything.
-/

set_option autoImplicit false

namespace ValueHeap

/-- A number of one of the numeric types. -/
inductive Number where
  /-- A truth value, a machine integer or a long one. -/
  | int (n : Int)
  /-- A float. -/
  | float (x : Binary64)
  /-- A real and an imaginary part. -/
  | complex (re im : Binary64)

namespace Number

/-- Whether the number has no place on the real line by its type. -/
def isComplex : Number → Bool
  | complex .. => true
  | _ => false

/-- The order of an integer and a float.  Beside a finite float a small integer is compared as a
float; for a larger one it is the order of the integer and the float's floor, unless these are equal
and the float is above its floor. -/
def intOrder? (n : Int) (x : Binary64) : Option Ordering :=
  if x.isNaN then none
  else if x.isInfinite then some (if x.isNegative then .gt else .lt)
  else if n.natAbs < Binary64.exactBound then (Binary64.ofInt n).order? x
  else
    match compare n x.floor with
    | .eq => some (if x.isIntegral then .eq else .lt)
    | o => some o

/-- The order of two real numbers, which neither a NaN nor a complex number has. -/
def order? : Number → Number → Option Ordering
  | int m, int n => some (compare m n)
  | int n, float x => intOrder? n x
  | float x, int n => (intOrder? n x).map Ordering.swap
  | float x, float y => x.order? y
  | complex .., _ => none
  | _, complex .. => none

/-- The real part. -/
def re : Number → Number
  | complex re _ => float re
  | real => real

/-- The imaginary part, which is zero for a real number. -/
def im : Number → Binary64
  | complex _ im => im
  | _ => .zero

/-- Whether two numbers are equal, part by part. -/
def equal (a b : Number) : Bool :=
  a.im.numEq b.im && a.re.order? b.re == some .eq

/-- What an operator says of two numbers.  Beside a complex number only the equality operators
mean something. -/
def holds (op : Operator) (a b : Number) : Bool :=
  if a.isComplex || b.isComplex then a.equal b == (op == .eq)
  else
    match a.order? b with
    | some o => op.holds o
    | none => op == .ne

end Number

end ValueHeap
