import ValueHeap.Heap.Items
import ValueHeap.Heap.Release

/-!
# Counting references

How often the contents of a heap refer to a slot, and what becomes of that number when a slot
changes.

## What is here

* `Heap.references` — the references to a slot from contents in use, each as often as it occurs.
* `Heap.total` — an amount that contents come to, over all contents in use.
* `Heap.references_put`, `Heap.references_vacate`, `Heap.references_place` and the same for
  `Heap.total` — the three ways in which a slot changes.
* `Heap.FreeExact` — the slots that wait for use are the empty ones, each listed once.
* `Heap.Extends` — one heap holds all that another one does.
-/

set_option autoImplicit false

namespace ValueHeap

/-! ## Totals over cells -/

/-- What an amount for contents comes to for one slot. -/
def Cell.amount (f : Payload → Nat) : Option Cell → Nat
  | none => 0
  | some c => f c.payload

/-- What an amount for contents comes to for several slots together. -/
def totalIn (f : Payload → Nat) : List (Option Cell) → Nat
  | [] => 0
  | c :: cells => Cell.amount f c + totalIn f cells

section Totals

variable {f : Payload → Nat}

theorem totalIn_cons (c : Option Cell) (cells : List (Option Cell)) :
    totalIn f (c :: cells) = Cell.amount f c + totalIn f cells := rfl

/-- The occurrences of a slot among what cells refer to are a total. -/
theorem count_children (s : Slot) (cells : List (Option Cell)) :
    ((cells.filterMap id).flatMap fun c => c.payload.children).count s =
      totalIn (fun p => p.children.count s) cells := by
  induction cells with
  | nil => rfl
  | cons c cells ih =>
    rw [totalIn_cons, ← ih]
    cases c with
    | none => simp [Cell.amount]
    | some c => simp [Cell.amount]

theorem totalIn_set {cells : List (Option Cell)} {i : Nat} {c : Option Cell} (d : Option Cell)
    (hi : cells[i]? = some c) :
    totalIn f (cells.set i d) + Cell.amount f c = totalIn f cells + Cell.amount f d := by
  induction cells generalizing i with
  | nil => simp at hi
  | cons x rest ih =>
    cases i with
    | zero =>
      rw [List.getElem?_cons_zero, Option.some_inj] at hi
      subst hi
      rw [List.set_cons_zero, totalIn_cons, totalIn_cons]
      omega
    | succ i =>
      have := ih hi
      rw [List.set_cons_succ, totalIn_cons, totalIn_cons]
      omega

theorem totalIn_concat (cells : List (Option Cell)) (c : Option Cell) :
    totalIn f (cells ++ [c]) = totalIn f cells + Cell.amount f c := by
  induction cells with
  | nil =>
    rw [List.nil_append, totalIn_cons]
    exact Nat.add_comm _ _
  | cons x rest ih =>
    rw [List.cons_append, totalIn_cons, totalIn_cons, ih, Nat.add_assoc]

theorem totalIn_mono {cells cells' : List (Option Cell)}
    (h : ∀ (i : Nat) (c : Cell), cells[i]? = some (some c) →
      ∃ c' : Cell, cells'[i]? = some (some c') ∧ c'.payload = c.payload) :
    totalIn f cells ≤ totalIn f cells' := by
  induction cells generalizing cells' with
  | nil => exact Nat.zero_le _
  | cons x rest ih =>
    cases cells' with
    | nil =>
      cases x with
      | none =>
        rw [totalIn_cons, Cell.amount, Nat.zero_add]
        exact ih fun i c hc => by simpa using h (i + 1) c hc
      | some c =>
        obtain ⟨c', hc', -⟩ := h 0 c rfl
        cases hc'
    | cons y rest' =>
      rw [totalIn_cons, totalIn_cons]
      refine Nat.add_le_add ?_ (ih fun i c hc => h (i + 1) c hc)
      cases x with
      | none => exact Nat.zero_le _
      | some c =>
        obtain ⟨c', hc', hp⟩ := h 0 c rfl
        rw [List.getElem?_cons_zero, Option.some_inj] at hc'
        rw [hc']
        exact Nat.le_of_eq (by rw [Cell.amount, Cell.amount, hp])

end Totals

namespace Heap

/-! ## References in a heap -/

/-- The references to a slot from contents in use. -/
def references (h : Heap) (s : Slot) : Nat :=
  (h.live.flatMap fun c => c.payload.children).count s

/-- What an amount for contents comes to for all contents in use. -/
def total (h : Heap) (f : Payload → Nat) : Nat := totalIn f h.cells.toList

variable {h k : Heap} {s t : Slot} {c d : Cell} {p : Payload} {f : Payload → Nat}

theorem references_eq (h : Heap) (s : Slot) :
    h.references s = h.total fun p => p.children.count s :=
  count_children s h.cells.toList

theorem getElem?_of_cell? (hc : h.cell? s = some c) : h.cells.toList[s]? = some (some c) := by
  rw [Array.getElem?_toList]
  rw [cell?] at hc
  cases hs : h.cells[s]? with
  | none => simp [hs] at hc
  | some x => rw [hs] at hc; exact congrArg _ hc

theorem cell?_of_getElem? (hc : h.cells.toList[s]? = some (some c)) : h.cell? s = some c := by
  rw [Array.getElem?_toList] at hc
  rw [cell?, hc]
  rfl

theorem find?_of_cell? (hc : h.cell? s = some c) : h.find? s = some c.payload := by
  rw [find?, hc]
  rfl

theorem exists_cell?_of_find? (hp : h.find? s = some p) :
    ∃ c, h.cell? s = some c ∧ c.payload = p :=
  Option.map_eq_some_iff.1 hp

theorem refcount_of_cell? (hc : h.cell? s = some c) : h.refcount s = c.refcount := by
  rw [refcount, hc]
  rfl

theorem refcount_of_cell?_none (hc : h.cell? s = none) : h.refcount s = 0 := by
  rw [refcount, hc]
  rfl

/-- What a slot in use refers to is referred to. -/
theorem references_pos (hp : h.find? s = some p) (ht : t ∈ p.children) : 0 < h.references t := by
  obtain ⟨c, hc, rfl⟩ := exists_cell?_of_find? hp
  refine List.count_pos_iff.2 (List.mem_flatMap.2 ⟨c, ?_, ht⟩)
  exact List.mem_filterMap.2 ⟨some c, List.mem_of_getElem? (getElem?_of_cell? hc), rfl⟩

theorem total_put (hc : h.cell? s = some c) :
    (h.put s d).total f + f c.payload = h.total f + f d.payload := by
  rw [total, total, put, Array.toList_setIfInBounds]
  exact totalIn_set (some d) (getElem?_of_cell? hc)

theorem total_vacate (hc : h.cell? s = some c) :
    (h.vacate s c).total f + f c.payload = h.total f := by
  rw [total, total, vacate, Array.toList_setIfInBounds]
  exact totalIn_set none (getElem?_of_cell? hc)

theorem references_put (t : Slot) (hc : h.cell? s = some c) :
    (h.put s d).references t + c.payload.children.count t =
      h.references t + d.payload.children.count t := by
  rw [references_eq, references_eq]
  exact total_put (f := fun p => p.children.count t) hc

theorem references_vacate (t : Slot) (hc : h.cell? s = some c) :
    (h.vacate s c).references t + c.payload.children.count t = h.references t := by
  rw [references_eq, references_eq]
  exact total_vacate (f := fun p => p.children.count t) hc

/-! ## Slots that wait for use -/

/-- The slots that wait for use are the empty ones, each listed once. -/
structure FreeExact (h : Heap) : Prop where
  nodup : h.free.Nodup
  mem_iff : ∀ s, s ∈ h.free ↔ s < h.cells.size ∧ h.cell? s = none

theorem FreeExact.put (hf : h.FreeExact) (hc : h.cell? s = some c) : (h.put s d).FreeExact where
  nodup := hf.nodup
  mem_iff t := by
    have hsize : (h.put s d).cells.size = h.cells.size := Array.size_setIfInBounds
    rw [hsize]
    refine (hf.mem_iff t).trans (and_congr_right fun _ => ?_)
    by_cases hst : s = t
    · subst hst
      rw [cell?_put_self hc, hc]
      simp
    · rw [cell?_put_of_ne hst]

theorem FreeExact.vacate (hf : h.FreeExact) (hc : h.cell? s = some c) :
    (h.vacate s c).FreeExact where
  nodup := by
    refine List.nodup_cons.2 ⟨fun hmem => ?_, hf.nodup⟩
    have := ((hf.mem_iff s).1 hmem).2
    rw [hc] at this
    cases this
  mem_iff t := by
    have hsize : (h.vacate s c).cells.size = h.cells.size := Array.size_setIfInBounds
    rw [hsize]
    by_cases hst : s = t
    · subst hst
      have hlt := lt_size_of_cell? hc
      rw [cell?_vacate_self]
      simp [Heap.vacate, hlt]
    · rw [cell?_vacate_of_ne hst, ← hf.mem_iff t]
      exact List.mem_cons.trans (or_iff_right (Ne.symm hst))

/-! ## Placing contents -/

theorem place_of_cons {rest : List Slot} (hfree : h.free = s :: rest) (p : Payload) :
    h.place p =
      (s, { h with cells := h.cells.setIfInBounds s (some ⟨1, p⟩), free := rest }) := by
  rw [place, hfree]

theorem place_of_nil (hfree : h.free = []) (p : Payload) :
    h.place p = (h.cells.size, { h with cells := h.cells.push (some ⟨1, p⟩) }) := by
  rw [place, hfree]

theorem FreeExact.of_cons {rest : List Slot} (hf : h.FreeExact) (hfree : h.free = s :: rest) :
    s < h.cells.size ∧ h.cell? s = none :=
  (hf.mem_iff s).1 (hfree ▸ List.mem_cons_self)

/-- The slot that contents are placed in was empty. -/
theorem cell?_place_fst (hf : h.FreeExact) (p : Payload) : h.cell? (h.place p).1 = none := by
  cases hfree : h.free with
  | cons s rest =>
    rw [place_of_cons hfree]
    exact (hf.of_cons hfree).2
  | nil =>
    rw [place_of_nil hfree, cell?, Array.getElem?_eq_none (Nat.le_refl _)]
    rfl

theorem cell?_place_self (hf : h.FreeExact) (p : Payload) :
    (h.place p).2.cell? (h.place p).1 = some ⟨1, p⟩ := by
  cases hfree : h.free with
  | cons s rest =>
    have hlt := (hf.of_cons hfree).1
    rw [place_of_cons hfree]
    simp [cell?, hlt]
  | nil =>
    rw [place_of_nil hfree]
    simp [cell?]

theorem cell?_place_of_ne (p : Payload) (hne : (h.place p).1 ≠ t) :
    (h.place p).2.cell? t = h.cell? t := by
  cases hfree : h.free with
  | cons s rest =>
    rw [place_of_cons hfree] at hne ⊢
    simp [cell?, Array.getElem?_setIfInBounds_ne hne]
  | nil =>
    rw [place_of_nil hfree] at hne ⊢
    simp only [cell?, Array.getElem?_push, if_neg (Ne.symm hne)]

theorem total_place (hf : h.FreeExact) (p : Payload) :
    (h.place p).2.total f = h.total f + f p := by
  rw [total, total]
  cases hfree : h.free with
  | cons s rest =>
    obtain ⟨hlt, hnone⟩ := hf.of_cons hfree
    have hcell : h.cells.toList[s]? = some none := by
      rw [Array.getElem?_toList, Array.getElem?_eq_getElem hlt]
      rw [cell?, Array.getElem?_eq_getElem hlt] at hnone
      exact congrArg _ hnone
    rw [place_of_cons hfree, Array.toList_setIfInBounds]
    exact totalIn_set (some ⟨1, p⟩) hcell
  | nil =>
    rw [place_of_nil hfree, Array.toList_push, totalIn_concat]
    rfl

theorem references_place (hf : h.FreeExact) (p : Payload) (t : Slot) :
    (h.place p).2.references t = h.references t + p.children.count t := by
  rw [references_eq, references_eq]
  exact total_place hf p

theorem FreeExact.place (hf : h.FreeExact) (p : Payload) : (h.place p).2.FreeExact := by
  have hself := cell?_place_self hf p
  have hother (t : Slot) (hne : (h.place p).1 ≠ t) := cell?_place_of_ne p hne
  cases hfree : h.free with
  | cons s rest =>
    rw [place_of_cons hfree] at hself hother ⊢
    have hnodup := hfree ▸ hf.nodup
    rw [List.nodup_cons] at hnodup
    refine ⟨hnodup.2, fun t => ?_⟩
    by_cases hst : s = t
    · subst hst
      rw [hself]
      simp [hnodup.1]
    · rw [hother t hst, Array.size_setIfInBounds, ← hf.mem_iff t, hfree]
      exact ⟨fun ht => List.mem_cons_of_mem s ht,
        fun ht => (List.mem_cons.1 ht).resolve_left (Ne.symm hst)⟩
  | nil =>
    rw [place_of_nil hfree] at hself hother ⊢
    refine ⟨hf.nodup, fun t => ?_⟩
    by_cases hst : h.cells.size = t
    · subst hst
      rw [hself]
      simp [hfree]
    · rw [hother t hst, Array.size_push, hf.mem_iff t]
      refine and_congr_left fun _ => ⟨Nat.lt_succ_of_lt, fun ht => ?_⟩
      exact Nat.lt_of_le_of_ne (Nat.le_of_lt_succ ht) (Ne.symm hst)

/-! ## Heaps that hold what another one does -/

/-- The contents of every slot that is in use in one heap are in the same slot of the other. -/
def Extends (h k : Heap) : Prop := ∀ s p, h.find? s = some p → k.find? s = some p

theorem Extends.refl (h : Heap) : h.Extends h := fun _ _ => id

theorem Extends.trans {l : Heap} (hhk : h.Extends k) (hkl : k.Extends l) : h.Extends l :=
  fun s p hp => hkl s p (hhk s p hp)

theorem Extends.total_le (hhk : h.Extends k) : h.total f ≤ k.total f := by
  refine totalIn_mono fun i c hc => ?_
  obtain ⟨c', hc', hp⟩ := exists_cell?_of_find? (hhk i _ (find?_of_cell? (cell?_of_getElem? hc)))
  exact ⟨c', getElem?_of_cell? hc', hp⟩

theorem Extends.references_le (hhk : h.Extends k) (s : Slot) : h.references s ≤ k.references s := by
  rw [references_eq, references_eq]
  exact hhk.total_le

theorem extends_put (hc : h.cell? s = some c) (hd : d.payload = c.payload) :
    h.Extends (h.put s d) ∧ (h.put s d).Extends h := by
  have hfind (t : Slot) : (h.put s d).find? t = h.find? t := by
    by_cases hst : s = t
    · subst hst
      rw [find?_of_cell? hc, find?_of_cell? (cell?_put_self hc), hd]
    · rw [find?, find?, cell?_put_of_ne hst]
  exact ⟨fun t p hp => (hfind t).trans hp, fun t p hp => (hfind t).symm.trans hp⟩

theorem extends_vacate : (h.vacate s c).Extends h := by
  intro t p hp
  by_cases hst : s = t
  · subst hst
    rw [find?, cell?_vacate_self] at hp
    cases hp
  · rwa [find?, cell?_vacate_of_ne hst] at hp

theorem extends_place (hf : h.FreeExact) (p : Payload) : h.Extends (h.place p).2 := by
  intro t q hq
  have hne : (h.place p).1 ≠ t := by
    intro heq
    rw [find?, ← heq, cell?_place_fst hf] at hq
    cases hq
  rw [find?, cell?_place_of_ne p hne]
  exact hq

end Heap

end ValueHeap
