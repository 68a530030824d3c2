import ValueHeap.Heap.Basic

/-!
# Releasing references

A reference that is given back counts down the references to its slot.  The last one empties the
slot, and then the references that its contents held are given back in turn, each together with
everything that follows from it before the next one.

## What is here

* `Heap.weight` — the number of slots in use and of the references that their contents hold.  It
  bounds the releases that can follow from one.
* `Heap.release` — gives back references one after the other.  A reference to an empty slot is a
  fault, and what was given back before it stays so.
* `Heap.allocate` — places contents after charging for them.  Contents that are refused are
  released, so a caller has nothing left to clean up.
-/

set_option autoImplicit false

namespace ValueHeap

/-- One for the slot itself, and one for each reference in its contents. -/
def cellWeight : Option Cell → Nat
  | none => 0
  | some c => 1 + c.payload.children.length

/-- The weights of several slots together. -/
def totalWeight : List (Option Cell) → Nat
  | [] => 0
  | c :: rest => cellWeight c + totalWeight rest

/-- Replacing the contents of one slot changes the total by the difference at that slot. -/
theorem totalWeight_set {l : List (Option Cell)} {i : Nat} {a : Option Cell} (b : Option Cell)
    (h : l[i]? = some a) :
    totalWeight (l.set i b) + cellWeight a = totalWeight l + cellWeight b := by
  induction l generalizing i with
  | nil => simp at h
  | cons x xs ih =>
    cases i with
    | zero =>
      simp only [List.getElem?_cons_zero, Option.some.injEq] at h
      subst h
      simp only [List.set_cons_zero, totalWeight]
      omega
    | succ i =>
      simp only [List.getElem?_cons_succ] at h
      have := ih h
      simp only [List.set_cons_succ, totalWeight]
      omega

namespace Heap

/-- The slots in use and the references that their contents hold, counted together. -/
def weight (h : Heap) : Nat := totalWeight h.cells.toList

theorem getElem?_of_access {h : Heap} {purpose : Access} {s : Slot} {c : Cell}
    (hc : h.access purpose s = .ok c) : h.cells.toList[s]? = some (some c) := by
  unfold access at hc
  rw [Array.getElem?_toList]
  split at hc
  · cases hc
  · cases hc
  · next heq => cases hc; exact heq

theorem weight_put {h : Heap} {purpose : Access} {s : Slot} {c : Cell} {n : Nat}
    (hc : h.access purpose s = .ok c) : (h.put s { c with refcount := n }).weight = h.weight := by
  have := totalWeight_set (some { c with refcount := n }) (getElem?_of_access hc)
  simp only [weight, put, Array.toList_setIfInBounds]
  simp only [cellWeight] at this
  omega

theorem weight_vacate {h : Heap} {purpose : Access} {s : Slot} {c : Cell}
    (hc : h.access purpose s = .ok c) :
    (h.vacate s c).weight + (1 + c.payload.children.length) = h.weight := by
  have := totalWeight_set none (getElem?_of_access hc)
  simp only [weight, vacate, Array.toList_setIfInBounds]
  simp only [cellWeight] at this
  omega

/-- Gives back references in order.  The contents of a slot that is emptied are given back before
the references that were waiting. -/
def release (h : Heap) (pending : List Slot) : Except Fault Unit × Heap :=
  match pending with
  | [] => (.ok (), h)
  | s :: rest =>
    match _hc : h.access .release s with
    | .error f => (.error f, h)
    | .ok c =>
      if 1 < c.refcount then release (h.put s { c with refcount := c.refcount - 1 }) rest
      else release (h.vacate s c) (c.payload.children ++ rest)
termination_by h.weight + pending.length
decreasing_by
  · rw [weight_put _hc]
    simp only [List.length_cons]
    omega
  · have := weight_vacate _hc
    simp only [List.length_append, List.length_cons]
    omega

/-- Places contents with one reference, if the accounts allow it.  The references in contents that
are refused are given back.  A charge that breaks off leaves nothing given back. -/
def allocate (h : Heap) (p : Payload) : Except Failure Slot × Heap :=
  match h.budget.charge p.size with
  | .ok budget =>
    let (s, h') := { h with budget }.place p
    (.ok s, h')
  | .error (.fault f) => (.error (.fault f), { h with budget := h.budget.overrun })
  | .error (.error e) =>
    match h.release p.children with
    | (.ok (), h') => (.error (.error e), h')
    | (.error f, h') => (.error (.fault f), h')

end Heap

end ValueHeap
