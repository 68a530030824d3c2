/-!
# Arithmetic progressions

A range denotes the integers `start`, `start + step`, … that lie strictly before `stop` in the
direction of `step`.  Its three parts are machine integers; lengths and comparisons are computed
on unbounded integers, so no part of them can overflow.

## What is here

* `Progression` — the three parts, the step being non-zero by construction, and
  `Progression.make?`, which refuses a zero step.
* `Progression.length` — the number of terms.
* `Progression.order` — the lexicographic order of the denoted sequences, read off starts, steps
  and lengths without listing a term.
-/

set_option autoImplicit false

namespace ValueHeap

/-- The parts of a range.  The step is never zero. -/
structure Progression where
  /-- The first term, unless there is none. -/
  start : Int64
  /-- The bound that every term stays before. -/
  stop : Int64
  /-- The distance from one term to the next. -/
  step : Int64
  /-- A range moves. -/
  step_ne : step ≠ 0
deriving DecidableEq

namespace Progression

/-- The range with these parts, if its step is not zero. -/
def make? (start stop step : Int64) : Option Progression :=
  if h : step ≠ 0 then some ⟨start, stop, step, h⟩ else none

/-- The distance from the start to the stop in the direction of the step; negative or zero when
the stop is not ahead. -/
def span (p : Progression) : Int :=
  if 0 < p.step.toInt then p.stop.toInt - p.start.toInt else p.start.toInt - p.stop.toInt

/-- The number of terms: the span divided by the size of a step, rounded up. -/
def length (p : Progression) : Nat :=
  let size := p.step.toInt.natAbs
  (p.span.toNat + size - 1) / size

/-- Whether there is no term. -/
def isEmpty (p : Progression) : Bool :=
  p.length == 0

/-- The order of the denoted sequences.  First terms decide; then second terms, that is the
steps, if both ranges have one; then the lengths. -/
def order (a b : Progression) : Ordering :=
  if a.length = 0 ∨ b.length = 0 then compare a.length b.length
  else if a.start ≠ b.start then compare a.start.toInt b.start.toInt
  else if 2 ≤ a.length ∧ 2 ≤ b.length ∧ a.step ≠ b.step then compare a.step.toInt b.step.toInt
  else compare a.length b.length

theorem make?_zero (start stop : Int64) : make? start stop 0 = none := by
  simp [make?]

theorem make?_of_ne {start stop step : Int64} (h : step ≠ 0) :
    make? start stop step = some ⟨start, stop, step, h⟩ := by
  simp [make?, h]

end Progression

end ValueHeap
