import ValueHeap.KeyHash

/-!
# What only the slots decide

Contents, types, their names and the hashes of keys are all read off the slots.  Two heaps with the
same slots agree about them, whatever their accounts say and however many levels were entered.

## What is here

* `Heap.read_congr`, `Heap.typeOf_congr`, `Heap.nameOfType_congr` and `Heap.typeName_congr` —
  contents, types and names.
* `Heap.isSubtype_congr` — which types lie below which.
* `Heap.keyHash_congr` — the hashes of keys.
-/

set_option autoImplicit false

namespace ValueHeap.Heap

variable {h k : Heap} (hcells : k.cells = h.cells)

include hcells

theorem read_congr (s : Slot) : k.read s = h.read s := by
  rw [read, read, access, access, hcells]

theorem typeOf_congr (v : Value) : k.typeOf v = h.typeOf v := by
  cases v with
  | ref s => rw [typeOf, typeOf, read_congr hcells]
  | _ => rfl

theorem nameOfType_congr (ty : TypeRef) : k.nameOfType ty = h.nameOfType ty := by
  cases ty with
  | builtin ty => rfl
  | userClass s => rw [nameOfType, nameOfType, read_congr hcells]

theorem typeName_congr (v : Value) : k.typeName v = h.typeName v := by
  rw [typeName, typeName, typeOf_congr hcells, funext (nameOfType_congr hcells)]

theorem chainMeets_congr (target : Slot) (steps : Nat) (s : Slot) :
    k.chainMeets target steps s = h.chainMeets target steps s := by
  induction steps generalizing s with
  | zero => rfl
  | succ steps ih =>
    rw [chainMeets, chainMeets, read_congr hcells]
    simp only [ih]

theorem isSubtype_congr (s t : TypeRef) : k.isSubtype s t = h.isSubtype s t := by
  cases s with
  | builtin s => cases t <;> rfl
  | userClass s =>
    cases t with
    | builtin t => rfl
    | userClass t => rw [isSubtype, isSubtype, hcells, chainMeets_congr hcells]

theorem keyHashWithin_congr (levels : Nat) (v : Value) :
    k.keyHashWithin levels v = h.keyHashWithin levels v := by
  induction levels generalizing v with
  | zero => cases v <;> rfl
  | succ levels ih =>
    cases v with
    | ref s => rw [keyHashWithin, keyHashWithin, read_congr hcells, funext ih]
    | _ => rfl

theorem keyHash_congr (v : Value) : k.keyHash v = h.keyHash v := by
  rw [keyHash, keyHash, hcells, keyHashWithin_congr hcells]

end ValueHeap.Heap
