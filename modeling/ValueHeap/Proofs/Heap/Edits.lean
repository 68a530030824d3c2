import ValueHeap.Heap.Items
import ValueHeap.Proofs.Heap.Accounts
import ValueHeap.Proofs.Heap.Reach
import ValueHeap.Proofs.Object.Active

/-!
# Lists that are changed, and values that do not notice

What is written out of a value depends on the slots that can be reached from it and on nothing else.
So lists elsewhere may be changed in any way without its being noticed.

## What is here

* `Heap.Edit` and `Heap.editAll` — items appended to lists and items put in the place of others, one
  after the other.
* `Heap.snapshot_eq` — heaps with the same in every slot that can be reached from a value write out
  the same for it.
* `Heap.snapshot_editAll` — **changes of lists that cannot be reached from a value** leave what is
  written out of it.
-/

set_option autoImplicit false

namespace ValueHeap

namespace Heap

variable {h k : Heap} {s t : Slot} {v : Value}

/-! ## Edits -/

/-- A change of a list in place. -/
inductive Edit where
  | push (list : Slot) (item : Value)
  | replace (list : Slot) (index : Nat) (item : Value)

/-- The slot that is changed. -/
def Edit.target : Edit → Slot
  | push list _ | replace list _ _ => list

/-- The heap after a change. -/
def edit (h : Heap) : Edit → Heap
  | .push list item => (h.pushItem list item).2
  | .replace list index item => (h.replaceItem list index item).2

/-- The heap after several changes. -/
def editAll (h : Heap) (edits : List Edit) : Heap := edits.foldl edit h

/-- A change puts other items into a list, or does nothing. -/
theorem edit_cases (h : Heap) (e : Edit) :
    h.edit e = h ∨ ∃ n items items', h.cell? e.target = some ⟨n, .list items⟩ ∧
      h.edit e = h.put e.target ⟨n, .list items'⟩ := by
  cases e with
  | push list item =>
    rw [edit, pushItem, Edit.target]
    cases hc : h.access .edit list with
    | error f => exact Or.inl rfl
    | ok c =>
      obtain ⟨n, p⟩ := c
      cases p with
      | list items => exact Or.inr ⟨n, items, _, access_eq_ok_iff.1 hc, rfl⟩
      | _ => exact Or.inl rfl
  | replace list index item =>
    rw [edit, replaceItem, Edit.target]
    cases hc : h.access .edit list with
    | error f => exact Or.inl rfl
    | ok c =>
      obtain ⟨n, p⟩ := c
      cases p with
      | list items =>
        simp only
        cases items[index]? with
        | none => exact Or.inl rfl
        | some old => exact Or.inr ⟨n, items, _, access_eq_ok_iff.1 hc, rfl⟩
      | _ => exact Or.inl rfl

/-! ## Snapshots -/

theorem getElem?_eq_of_cell? (hsize : k.cells.size = h.cells.size) (hs : k.cell? s = h.cell? s) :
    k.cells[s]? = h.cells[s]? := by
  by_cases hlt : s < h.cells.size
  · rw [cell?, cell?, Array.getElem?_eq_getElem (hsize ▸ hlt), Array.getElem?_eq_getElem hlt] at hs
    rw [Array.getElem?_eq_getElem (hsize ▸ hlt), Array.getElem?_eq_getElem hlt]
    exact congrArg some hs
  · have hle := Nat.le_of_not_lt hlt
    rw [Array.getElem?_eq_none hle, Array.getElem?_eq_none (hsize ▸ hle)]

theorem read_eq_of_cell? (hsize : k.cells.size = h.cells.size) (hs : k.cell? s = h.cell? s) :
    k.read s = h.read s := by
  rw [read, read, access, access, getElem?_eq_of_cell? hsize hs]

theorem mapM_congr {α β : Type} {f g : α → Except Fault β} {xs : List α}
    (hfg : ∀ x ∈ xs, f x = g x) : xs.mapM f = xs.mapM g := by
  induction xs with
  | nil => rfl
  | cons x rest ih =>
    rw [List.mapM_cons, List.mapM_cons, hfg x List.mem_cons_self,
      ih fun y hy => hfg y (List.mem_cons_of_mem x hy)]

/-- The object for contents depends on the objects for their parts, and on the classes that they
refer to. -/
theorem objectOf_congr {p : Payload} {part part' : Value → Except Fault Object}
    (hparts : ∀ x ∈ p.parts, part' x = part x)
    (hclasses : ∀ t ∈ p.classSlots, k.read t = h.read t) :
    k.objectOf part' p = h.objectOf part p := by
  cases p with
  | list items => exact congrArg (Object.list <$> ·) (mapM_congr hparts)
  | tuple items => exact congrArg (Object.tuple <$> ·) (mapM_congr hparts)
  | set elements =>
    refine congrArg (Object.set <$> ·) (mapM_congr fun e he => ?_)
    exact hparts _ (List.mem_map_of_mem he)
  | dict entries =>
    refine congrArg (Object.dict <$> ·) (mapM_congr fun e he => ?_)
    rw [hparts e.key.value (List.mem_flatMap.2 ⟨e, he, by simp [Entry.parts]⟩),
      hparts e.value (List.mem_flatMap.2 ⟨e, he, by simp [Entry.parts]⟩)]
  | slice start stop step =>
    rw [objectOf, objectOf, hparts start (by simp [Payload.parts]),
      hparts stop (by simp [Payload.parts]), hparts step (by simp [Payload.parts])]
  | userInstance cls =>
    rw [objectOf, objectOf, nameOfType, nameOfType, hclasses cls List.mem_cons_self]
  | _ => rfl

theorem snapshotFrom_eq (hsize : k.cells.size = h.cells.size)
    (hcells : ∀ s, h.ReachedFrom v s → k.cell? s = h.cell? s) (slots : Nat) (path : List Slot) :
    k.snapshotFrom slots path v = h.snapshotFrom slots path v := by
  induction slots generalizing path v with
  | zero =>
    cases v with
    | ref s =>
      have hread := read_eq_of_cell? hsize (hcells s ⟨s, rfl, .refl⟩)
      rw [snapshotFrom, snapshotFrom, hread]
    | _ => rfl
  | succ slots ih =>
    cases v with
    | ref s =>
      have hread := read_eq_of_cell? hsize (hcells s ⟨s, rfl, .refl⟩)
      rw [snapshotFrom, snapshotFrom, hread]
      cases hp : h.read s with
      | error f => rfl
      | ok p =>
        have hfind := read_eq_ok_iff.1 hp
        by_cases hmem : s ∈ path
        · simp only [if_pos hmem]
        · simp only [if_neg hmem]
          refine objectOf_congr (fun x hx => ih (fun t ht => ?_) _) fun t ht => ?_
          · exact hcells t ⟨s, rfl, ht.part hfind hx⟩
          · exact read_eq_of_cell? hsize
              (hcells t ⟨s, rfl, .single ⟨p, hfind, p.classSlots_subset ht⟩⟩)
    | _ => rfl

/-- **What is written out of a value depends on what can be reached from it.** -/
theorem snapshot_eq (hsize : k.cells.size = h.cells.size)
    (hcells : ∀ s, h.ReachedFrom v s → k.cell? s = h.cell? s) :
    k.snapshot v = h.snapshot v := by
  rw [snapshot_eq_snapshotFrom, snapshot_eq_snapshotFrom, hsize]
  exact snapshotFrom_eq hsize hcells _ _

/-! ## Edits elsewhere -/

/-- A change keeps the number of slots, and every slot that holds no list. -/
theorem edit_keeps {e : Edit} {base : Heap} {kept : Slot → Prop}
    (hkept : ∀ s, kept s → h.cell? s = base.cell? s)
    (he : ∀ n items, kept e.target → base.cell? e.target ≠ some ⟨n, .list items⟩) :
    (h.edit e).cells.size = h.cells.size ∧ ∀ s, kept s → (h.edit e).cell? s = base.cell? s := by
  rcases h.edit_cases e with heq | ⟨n, items, items', hc, heq⟩
  · rw [heq]
    exact ⟨rfl, hkept⟩
  · rw [heq]
    refine ⟨Array.size_setIfInBounds, fun s hs => ?_⟩
    have hne : e.target ≠ s := by
      rintro rfl
      exact he n items hs ((hkept _ hs).symm.trans hc)
    rw [cell?_put_of_ne hne]
    exact hkept s hs

theorem editAll_keeps {edits : List Edit} {base : Heap} {kept : Slot → Prop}
    (hkept : ∀ s, kept s → h.cell? s = base.cell? s)
    (he : ∀ e ∈ edits, ∀ n items, kept e.target → base.cell? e.target ≠ some ⟨n, .list items⟩) :
    (h.editAll edits).cells.size = h.cells.size ∧
      ∀ s, kept s → (h.editAll edits).cell? s = base.cell? s := by
  induction edits generalizing h with
  | nil => exact ⟨rfl, hkept⟩
  | cons e rest ih =>
    obtain ⟨hsize, hcells⟩ := edit_keeps hkept (he e List.mem_cons_self)
    obtain ⟨hsizes, hall⟩ := ih hcells fun f hf => he f (List.mem_cons_of_mem e hf)
    exact ⟨hsizes.trans hsize, hall⟩

/-- **Changes of lists that cannot be reached from a value** leave what is written out of it. -/
theorem snapshot_editAll {edits : List Edit}
    (he : ∀ e ∈ edits, ∀ items, h.find? e.target = some (.list items) →
      ¬h.ReachedFrom v e.target) :
    (h.editAll edits).snapshot v = h.snapshot v := by
  have hkeeps : (h.editAll edits).cells.size = h.cells.size ∧
      ∀ s, h.ReachedFrom v s → (h.editAll edits).cell? s = h.cell? s :=
    editAll_keeps (fun _ _ => rfl) fun e hmem n items hreach hc =>
      he e hmem items (find?_of_cell? hc) hreach
  exact snapshot_eq hkeeps.1 hkeeps.2

end Heap

end ValueHeap
