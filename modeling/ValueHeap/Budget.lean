import ValueHeap.Failure

/-!
# Limits and what counts against them

A heap may run under limits on the number of its allocations and on the memory in use.  Every
allocation is charged before it happens, and refused if it would go over a limit; every release is
refunded.  Two more limits are only looked up: how deeply an operation may nest, and how many
digits an integer may have to be written.

## What is here

* `Limits` — the four limits, with the defaults.
* `Usage` — the allocations made and the memory in use.
* `Budget` — limits with a usage, or no accounts at all.
* `Budget.charge` and `Budget.refund`, and `Budget.eq_of_charge` — what has room when it is charged
  for.
* `Budget.overrun` — what a charge leaves that breaks off, and `Budget.of_charge_fault` when it does.
-/

set_option autoImplicit false

namespace ValueHeap

/-- The limits of a heap.  A limit that is not set does not apply, except that nesting always has
the default limit at least. -/
structure Limits where
  /-- The most allocations. -/
  allocations : Option Nat := none
  /-- The most memory in use, in bytes. -/
  memory : Option Nat := none
  /-- The most levels of nesting. -/
  depth : Option Nat := some 200
  /-- The most digits of an integer that is written. -/
  digits : Option Nat := some 4300
deriving DecidableEq

/-- What has been charged. -/
structure Usage where
  /-- The allocations made so far. -/
  allocations : Nat := 0
  /-- The memory in use, in bytes. -/
  memory : Nat := 0
deriving DecidableEq

/-- The accounts of a heap. -/
inductive Budget where
  /-- Nothing is counted, and the default limits on nesting and digits apply. -/
  | untracked
  /-- Everything is counted against the limits. -/
  | tracked (limits : Limits) (usage : Usage)
deriving DecidableEq

namespace Budget

/-- Fresh accounts under the limits. -/
def under (limits : Limits) : Budget := tracked limits {}

/-- The limits that apply. -/
def limits : Budget → Limits
  | untracked => {}
  | tracked limits _ => limits

/-- The usage, if it is counted. -/
def usage? : Budget → Option Usage
  | untracked => none
  | tracked _ usage => some usage

/-- The most levels of nesting. -/
def depthLimit (b : Budget) : Nat := b.limits.depth.getD 200

/-- The most digits of an integer that is written. -/
def digitLimit (b : Budget) : Option Nat := b.limits.digits

/-- The error of an operation that has used up all levels of nesting and needs one more. -/
def noLevelLeft (b : Budget) : ResourceError := .recursion b.depthLimit (b.depthLimit + 1)

/-- The first amount of memory that does not fit a 64-bit word. -/
def wordBound : Nat := 0x10000000000000000

/-- Charges an allocation of so many bytes.  The number of allocations is looked at first; the
memory in use must fit a word even where it has no limit. -/
def charge (b : Budget) (size : Nat) : Except Failure Budget :=
  match b with
  | untracked => .ok untracked
  | tracked limits usage =>
    let memory := usage.memory + size
    let granted := Budget.tracked limits ⟨usage.allocations + 1, memory⟩
    match limits.allocations.filter (· ≤ usage.allocations) with
    | some most => .error (.error (.resource (.allocation most (usage.allocations + 1))))
    | none =>
      if wordBound ≤ memory then .error (.fault .overflow)
      else
        match limits.memory.filter (· < memory) with
        | some most => .error (.error (.resource (.memory most memory)))
        | none => .ok granted

/-- The accounts that a charge leaves which breaks off because the memory in use would no longer fit
a word.  The sum is made to hold it against the limit on memory, before anything is counted.  Where
there is no such limit it is made last, and the allocation has been counted. -/
def overrun (b : Budget) : Budget :=
  match b with
  | untracked => untracked
  | tracked limits usage =>
    match limits.memory with
    | some _ => tracked limits usage
    | none => tracked limits { usage with allocations := usage.allocations + 1 }

/-- Takes a release of so many bytes off the memory in use. -/
def refund (b : Budget) (size : Nat) : Budget :=
  match b with
  | untracked => untracked
  | tracked limits usage => tracked limits { usage with memory := usage.memory - size }

theorem limits_refund (b : Budget) (size : Nat) : (b.refund size).limits = b.limits := by
  cases b <;> rfl

theorem limits_overrun (b : Budget) : b.overrun.limits = b.limits := by
  rcases b with _ | ⟨⟨_, _ | _, _, _⟩, usage⟩ <;> rfl

theorem limits_charge {b c : Budget} {size : Nat} (h : b.charge size = .ok c) :
    c.limits = b.limits := by
  cases b with
  | untracked => cases h; rfl
  | tracked limits usage =>
    simp only [charge] at h
    split at h
    · cases h
    · split at h
      · cases h
      · split at h
        · cases h
        · cases h; rfl

/-- What is charged for has room under the limits and in a word. -/
theorem eq_of_charge {limits : Limits} {usage : Usage} {c : Budget} {size : Nat}
    (h : (tracked limits usage).charge size = .ok c) :
    c = tracked limits ⟨usage.allocations + 1, usage.memory + size⟩ ∧
      (∀ most, limits.allocations = some most → usage.allocations < most) ∧
      usage.memory + size < wordBound ∧
      ∀ most, limits.memory = some most → usage.memory + size ≤ most := by
  simp only [charge] at h
  split at h
  · cases h
  · next hallocations =>
    split at h
    · cases h
    · next hword =>
      split at h
      · cases h
      · next hmemory =>
        cases h
        refine ⟨rfl, fun most hmost => ?_, Nat.lt_of_not_le hword, fun most hmost => ?_⟩
        · rw [hmost, Option.filter_eq_none_iff] at hallocations
          simpa using hallocations
        · rw [hmost, Option.filter_eq_none_iff] at hmemory
          simpa using hmemory

/-- A charge breaks off on what does not fit a word, if there is room for one more allocation. -/
theorem of_charge_fault {limits : Limits} {usage : Usage} {size : Nat} {f : Fault}
    (h : (tracked limits usage).charge size = .error (.fault f)) :
    f = .overflow ∧ (∀ most, limits.allocations = some most → usage.allocations < most) ∧
      wordBound ≤ usage.memory + size := by
  simp only [charge] at h
  split at h
  · cases h
  · next hallocations =>
    split at h
    · next hword =>
      cases h
      refine ⟨rfl, fun most hmost => ?_, hword⟩
      rw [hmost, Option.filter_eq_none_iff] at hallocations
      simpa using hallocations
    · split at h <;> cases h

end Budget

end ValueHeap
