import ValueHeap.Budget
import ValueHeap.Value

/-!
# The heap

The heap is a row of slots.  A slot in use holds a payload with the number of references to it; a
slot whose value was released is empty and waits to be used again.

## What is here

* `Cell` and `Heap` — beside its slots a heap has the slots that wait for use (the one released
  last comes first), its accounts, and the number of levels that the operations under way have
  entered.
* `Heap.cell?` — the view of a heap that everything else is stated in: what a slot holds.
* `Heap.access` and `Heap.read` — a slot looked up for a purpose, with the fault for a slot that
  holds nothing.
* `Heap.put`, `Heap.vacate` and `Heap.place` — the three ways in which a slot changes, each with
  its effect on the view.
* `Heap.retain` — one more reference.
* `Heap.enter` and `Heap.leave` — the count of levels.
-/

set_option autoImplicit false

namespace ValueHeap

/-- What a slot in use holds. -/
structure Cell where
  /-- The references to the slot. -/
  refcount : Nat
  /-- The contents. -/
  payload : Payload
deriving DecidableEq

/-- Slots with their contents, and what is kept beside them. -/
structure Heap where
  /-- The slots that were ever given out, empty or in use. -/
  cells : Array (Option Cell)
  /-- The empty slots, the one released last in front. -/
  free : List Slot
  /-- The accounts. -/
  budget : Budget
  /-- The levels that operations under way have entered. -/
  depth : Nat

namespace Heap

/-- A heap without slots. -/
def empty (budget : Budget) : Heap := ⟨#[], [], budget, 0⟩

/-! ## Looking -/

/-- What a slot holds. -/
def cell? (h : Heap) (s : Slot) : Option Cell := h.cells[s]?.join

/-- The contents of a slot in use. -/
def find? (h : Heap) (s : Slot) : Option Payload := (h.cell? s).map Cell.payload

/-- The references to a slot; an empty slot has none. -/
def refcount (h : Heap) (s : Slot) : Nat := ((h.cell? s).map Cell.refcount).getD 0

/-- What a slot holds, which must be something. -/
def access (h : Heap) (purpose : Access) (s : Slot) : Except Fault Cell :=
  match h.cells[s]? with
  | none => .error (.missing purpose)
  | some none => .error (.freed purpose)
  | some (some c) => .ok c

/-- The contents of a slot, which must be in use. -/
def read (h : Heap) (s : Slot) : Except Fault Payload :=
  (h.access .read s).map Cell.payload

/-- The slots in use, in order. -/
def live (h : Heap) : List Cell := h.cells.toList.filterMap id

/-- How many slots in use hold contents of each kind, for the kinds that occur. -/
def census (h : Heap) : List (String × Nat) :=
  Payload.kindNames.filterMap fun name =>
    match h.live.countP (·.payload.kindName == name) with
    | 0 => none
    | n => some (name, n)

theorem access_eq_ok_iff {h : Heap} {purpose : Access} {s : Slot} {c : Cell} :
    h.access purpose s = .ok c ↔ h.cell? s = some c := by
  unfold access cell?
  rcases h.cells[s]? with _ | _ | c' <;> simp

theorem read_eq_ok_iff {h : Heap} {s : Slot} {p : Payload} :
    h.read s = .ok p ↔ h.find? s = some p := by
  unfold read find? access cell?
  rcases h.cells[s]? with _ | _ | c' <;> simp [Except.map]

theorem lt_size_of_cell? {h : Heap} {s : Slot} {c : Cell} (hc : h.cell? s = some c) :
    s < h.cells.size := by
  refine Nat.lt_of_not_le fun hs => ?_
  rw [cell?, Array.getElem?_eq_none hs] at hc
  cases hc

/-! ## Changing a slot -/

/-- Puts something into a slot that was given out before. -/
def put (h : Heap) (s : Slot) (c : Cell) : Heap :=
  { h with cells := h.cells.setIfInBounds s (some c) }

/-- Empties a slot, which is then the first to be used again. -/
def vacate (h : Heap) (s : Slot) (c : Cell) : Heap :=
  { h with
    cells := h.cells.setIfInBounds s none
    free := s :: h.free
    budget := h.budget.refund c.payload.size }

/-- Puts contents with one reference into the slot that is next in line, or into a new one. -/
def place (h : Heap) (p : Payload) : Slot × Heap :=
  match h.free with
  | s :: rest => (s, { h with cells := h.cells.setIfInBounds s (some ⟨1, p⟩), free := rest })
  | [] => (h.cells.size, { h with cells := h.cells.push (some ⟨1, p⟩) })

theorem cell?_put_self {h : Heap} {s : Slot} {c d : Cell} (hc : h.cell? s = some d) :
    (h.put s c).cell? s = some c := by
  simp [put, cell?, lt_size_of_cell? hc]

theorem cell?_put_of_ne {h : Heap} {s t : Slot} {c : Cell} (hne : s ≠ t) :
    (h.put s c).cell? t = h.cell? t := by
  simp [put, cell?, Array.getElem?_setIfInBounds_ne hne]

theorem cell?_vacate_self {h : Heap} {s : Slot} {c : Cell} : (h.vacate s c).cell? s = none := by
  simp only [vacate, cell?, Array.getElem?_setIfInBounds_self]
  split <;> rfl

theorem cell?_vacate_of_ne {h : Heap} {s t : Slot} {c : Cell} (hne : s ≠ t) :
    (h.vacate s c).cell? t = h.cell? t := by
  simp [vacate, cell?, Array.getElem?_setIfInBounds_ne hne]

/-! ## References -/

/-- Takes one more reference to a slot, which must be in use. -/
def retain (h : Heap) (s : Slot) : Except Fault Unit × Heap :=
  match h.access .read s with
  | .ok c => (.ok (), h.put s { c with refcount := c.refcount + 1 })
  | .error f => (.error f, h)

/-! ## Levels -/

/-- The levels that are left before the limit on nesting. -/
def levelsLeft (h : Heap) : Nat := h.budget.depthLimit - h.depth

/-- Enters one level, if one is left. -/
def enter (h : Heap) : Except ResourceError Heap :=
  if 0 < h.levelsLeft then .ok { h with depth := h.depth + 1 }
  else .error (.recursion h.budget.depthLimit (h.depth + 1))

/-- Leaves one level. -/
def leave (h : Heap) : Heap := { h with depth := h.depth - 1 }

theorem leave_of_enter {h k : Heap} (hk : h.enter = .ok k) : k.leave = h := by
  simp only [enter] at hk
  split at hk
  · cases hk; rfl
  · cases hk

end Heap

end ValueHeap
