import ValueHeap.Heap.Basic

/-!
# Changing a list in place

Lists are the only contents that change while they are in use: an item is appended, or takes the
place of another.

## What is here

* `Heap.pushItem` — appends an item to the list in a slot.
* `Heap.replaceItem` — puts an item in the place of another, which is handed back.

Both take over a reference from their caller together with the item, also where nothing changes: an
item that finds no place is dropped, and its reference is not given back.
-/

set_option autoImplicit false

namespace ValueHeap.Heap

/-- Appends an item to the list in a slot, and answers with the new length.  There is no answer
when the slot holds no list. -/
def pushItem (h : Heap) (s : Slot) (item : Value) : Except Fault (Option Nat) × Heap :=
  match h.access .edit s with
  | .ok ⟨refcount, .list items⟩ =>
    (.ok (some (items.length + 1)), h.put s ⟨refcount, .list (items ++ [item])⟩)
  | .ok _ => (.ok none, h)
  | .error f => (.error f, h)

/-- Puts an item at a place in the list in a slot, and answers with the item that was there.
Nothing changes when the list is not so long, or when the slot holds no list. -/
def replaceItem (h : Heap) (s : Slot) (index : Nat) (item : Value) :
    Except Fault (Option Value) × Heap :=
  match h.access .edit s with
  | .ok ⟨refcount, .list items⟩ =>
    match items[index]? with
    | some old => (.ok (some old), h.put s ⟨refcount, .list (items.set index item)⟩)
    | none => (.ok none, h)
  | .ok _ => (.ok none, h)
  | .error f => (.error f, h)

end ValueHeap.Heap
