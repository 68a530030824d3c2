import ValueHeap.Numeric.Binary64

/-!
# The shortest digits that read back

Of all decimals that a reader rounds to a given float, the one with the fewest digits is written,
and of several of that length the nearest to the float.

Everything here is counted in units of one power of ten small enough that the float and both ends
of the interval that rounds to it are whole numbers of units.  A decimal with few digits is then a
multiple of a large power of ten, so the search goes down through the powers of ten until one has a
multiple inside the interval.

## What is here

* `Shortest.Interval` — the float, its interval and the unit; `Shortest.intervalOf` makes it from
  a float.
* `Shortest.onGrid` — the multiple of a power of ten (`Shortest.grid`) that is in the interval and
  nearest to the float, if one is there.
* `Shortest.search` — the multiple on the coarsest grid that has one.
* `Shortest.digits` — the digits of a positive finite float and the exponent of the first one.
-/

set_option autoImplicit false

namespace ValueHeap.Shortest

/-- A positive float together with the numbers that round to it. -/
structure Interval where
  /-- The lower end, in units. -/
  low : Nat
  /-- The float itself. -/
  value : Nat
  /-- The upper end. -/
  high : Nat
  /-- Whether the ends themselves round to the float. -/
  closed : Bool
  /-- A unit is this power of one tenth. -/
  places : Nat

/-- Whether a number of units rounds to the float. -/
def Interval.contains (i : Interval) (n : Nat) : Bool :=
  if i.closed then decide (i.low ≤ n) && decide (n ≤ i.high)
  else decide (i.low < n) && decide (n < i.high)

/-- The interval of a positive finite float.  It reaches half way to both neighbours; the one below
is twice as near when the significand is a power of two with a neighbour of lower exponent.  An
even significand takes the ends. -/
def intervalOf (x : Binary64) : Interval :=
  let m := x.significand
  let below := if x.fraction = 0 ∧ 1 < x.field then 1 else 2
  let unit := fun n : Nat =>
    match x.exponent - 2 with
    | .ofNat e => n <<< e
    | .negSucc e => n * Nat.pow 5 (e + 1)
  { low := unit (4 * m - below)
    value := unit (4 * m)
    high := unit (4 * m + 2)
    closed := m % 2 == 0
    places := (2 - x.exponent).toNat }

/-- The distance between the numbers with `k` zeros at their end. -/
def grid (k : Nat) : Nat := Nat.pow 10 k

/-- The number with `k` zeros at its end that rounds to the float and is nearest to it, without
these zeros.  Only the two such numbers around the float can be; halfway between them the even one
is taken. -/
def onGrid (i : Interval) (k : Nat) : Option Nat :=
  let below := i.value / grid k
  let rest := i.value % grid k
  if i.contains (below * grid k) then
    if i.contains ((below + 1) * grid k) then
      match compare (2 * rest) (grid k) with
      | .lt => some below
      | .gt => some (below + 1)
      | .eq => some (if below % 2 = 0 then below else below + 1)
    else some below
  else if i.contains ((below + 1) * grid k) then some (below + 1)
  else none

/-- The multiple on the coarsest grid from `10 ^ k` down that has one, with its grid.  The grid of
single units has the float itself. -/
def search (i : Interval) : Nat → Nat × Nat
  | 0 => (i.value, 0)
  | k + 1 =>
    match onGrid i (k + 1) with
    | some n => (n, k + 1)
    | none => search i k

/-- The decimal digits of a number, the first one first. -/
def decimalDigits (n : Nat) : List Char :=
  Nat.toDigits 10 n

/-- A list of digits without the zeros at its end. -/
def dropTrailingZeros (ds : List Char) : List Char :=
  (ds.reverse.dropWhile (· == '0')).reverse

/-- The shortest digits of a positive finite float, and the power of ten of the first digit. -/
def digits (x : Binary64) : List Char × Int :=
  let i := intervalOf x
  let (n, k) := search i ((decimalDigits i.value).length - 1)
  let ds := decimalDigits n
  (dropTrailingZeros ds, (ds.length : Int) - 1 + k - i.places)

end ValueHeap.Shortest
