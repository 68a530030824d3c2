import Mathlib.Data.Finset.Card
import Mathlib.Order.Interval.Finset.Nat
import ValueHeap.Proofs.Heap.Coherent

/-!
# Types and hashes in a coherent heap

In a coherent heap the slots of values in use and of their parts are in use themselves, so looking
them up meets no fault.  What follows references without a limit on nesting goes down the layers.
There are no more of these than slots, so no such walk comes to the end of its fuel.

## What is here

* `Heap.Layered.bounded` — layers numbered below the number of slots.
* `Heap.exists_typeOf`, `Heap.exists_typeName` and `Heap.exists_isSubtype` — types, their names and
  their order.
* `Heap.exists_keyHash` — hashes of values as keys.
-/

set_option autoImplicit false

namespace ValueHeap

/-! ## Layers -/

/-- The layers can be numbered below the number of slots. -/
theorem Heap.Layered.bounded {h : Heap} (hc : h.Closed) (hl : h.Layered) :
    ∃ rank : Slot → Nat, (∀ s p, h.find? s = some p → rank s < h.cells.size) ∧
      ∀ s p, h.find? s = some p → p.isList = false → ∀ t ∈ p.children, rank t < rank s := by
  obtain ⟨rank, hrank⟩ := hl
  have hlt {s : Slot} {p : Payload} (hp : h.find? s = some p) : s < h.cells.size := by
    obtain ⟨c, hc, -⟩ := Option.map_eq_some_iff.1 hp
    exact lt_size_of_cell? hc
  -- a layer counts the slots below it
  let below (s : Slot) := (Finset.range h.cells.size).filter fun t => rank t < rank s
  refine ⟨fun s => (below s).card, fun s p hp => ?_, fun s p hp hlist t ht => ?_⟩
  · rw [← Finset.card_range h.cells.size]
    refine Finset.card_lt_card (Finset.filter_ssubset.2 ⟨s, ?_, ?_⟩)
    · exact Finset.mem_range.2 (hlt hp)
    · exact Nat.lt_irrefl _
  · have hts := hrank s p hp hlist t ht
    obtain ⟨q, hq⟩ := Option.isSome_iff_exists.1 (hc s p hp t ht)
    refine Finset.card_lt_card (Finset.ssubset_iff_of_subset ?_ |>.2 ⟨t, ?_, ?_⟩)
    · intro u hu
      rw [Finset.mem_filter] at hu ⊢
      exact ⟨hu.1, Nat.lt_trans hu.2 hts⟩
    · exact Finset.mem_filter.2 ⟨Finset.mem_range.2 (hlt hq), hts⟩
    · exact fun hmem => Nat.lt_irrefl _ (Finset.mem_filter.1 hmem).2

namespace Heap

variable {h : Heap} {v : Value}

/-! ## Types -/

/-- A type that is a class is in a slot that holds one. -/
def GoodType (h : Heap) (ty : TypeRef) : Prop :=
  ∀ s, ty = .userClass s → ∃ name base, h.find? s = some (.userClass name base)

theorem exists_read {s : Slot} (hs : h.Names (.ref s)) :
    ∃ p, h.read s = .ok p ∧ h.find? s = some p := by
  obtain ⟨p, hp⟩ := Option.isSome_iff_exists.1 (hs s rfl)
  exact ⟨p, read_eq_ok_iff.2 hp, hp⟩

theorem exists_typeOf (hc : h.Coherent) (hv : h.Names v) :
    ∃ ty, h.typeOf v = .ok ty ∧ h.GoodType ty := by
  cases v with
  | ref s =>
    obtain ⟨p, -, hp⟩ := exists_read hv
    refine ⟨p.typeRef, typeOf_ref hp, fun t ht => ?_⟩
    have hmem : t ∈ p.classSlots := by
      cases p <;> cases ht
      exact List.mem_cons_self
    exact (hc.fits s p hp).classes t hmem
  | _ => exact ⟨_, rfl, fun s hs => by cases hs⟩

theorem exists_nameOfType {ty : TypeRef} (hty : h.GoodType ty) :
    ∃ name, h.nameOfType ty = .ok name := by
  cases ty with
  | builtin ty => exact ⟨ty.name, rfl⟩
  | userClass s =>
    obtain ⟨name, base, hs⟩ := hty s rfl
    exact ⟨name, by rw [nameOfType, read_eq_ok_iff.2 hs]⟩

theorem exists_typeName (hc : h.Coherent) (hv : h.Names v) : ∃ name, h.typeName v = .ok name := by
  obtain ⟨ty, hty, hgood⟩ := exists_typeOf hc hv
  obtain ⟨name, hname⟩ := exists_nameOfType hgood
  exact ⟨name, bind_eq_ok.2 ⟨ty, hty, hname⟩⟩

theorem exists_chainMeets {rank : Slot → Nat} (hc : h.Coherent)
    (hrank : ∀ s p, h.find? s = some p → p.isList = false → ∀ t ∈ p.children, rank t < rank s)
    (target : Slot) {steps : Nat} {s : Slot} (hs : rank s < steps)
    (hgood : h.GoodType (.userClass s)) : ∃ b, h.chainMeets target steps s = .ok b := by
  induction steps generalizing s with
  | zero => exact absurd hs (Nat.not_lt_zero _)
  | succ steps ih =>
    obtain ⟨name, base, hp⟩ := hgood s rfl
    rw [chainMeets]
    split
    · exact ⟨true, rfl⟩
    · rw [read_eq_ok_iff.2 hp]
      cases base with
      | none => exact ⟨false, rfl⟩
      | some b =>
        have hlt := hrank s _ hp rfl b (by simp [Payload.children])
        refine ih (by omega) fun t ht => ?_
        cases ht
        exact (hc.fits s _ hp).classes b (by simp [Payload.classSlots])

theorem exists_isSubtype (hc : h.Coherent) {s t : TypeRef} (hs : h.GoodType s) :
    ∃ b, h.isSubtype s t = .ok b := by
  cases s with
  | builtin s => cases t <;> exact ⟨_, rfl⟩
  | userClass s =>
    cases t with
    | builtin t => exact ⟨_, rfl⟩
    | userClass t =>
      obtain ⟨rank, hsize, hrank⟩ := hc.layered.bounded hc.closed
      obtain ⟨name, base, hp⟩ := hs s rfl
      exact exists_chainMeets hc hrank t (Nat.lt_succ_of_lt (hsize s _ hp)) hs

/-! ## Hashes as keys -/

theorem exists_all {hash : Value → Except Fault (Option UInt64)} {items : List Value}
    (hitems : ∀ v ∈ items, ∃ r, hash v = .ok r) : ∃ r, KeyHash.all hash items = .ok r := by
  induction items with
  | nil => exact ⟨_, rfl⟩
  | cons v rest ih =>
    obtain ⟨r, hr⟩ := hitems v List.mem_cons_self
    obtain ⟨words, hwords⟩ := ih fun w hw => hitems w (List.mem_cons_of_mem v hw)
    rw [KeyHash.all, hr]
    cases r with
    | none => exact ⟨_, rfl⟩
    | some word => exact ⟨_, by rw [hwords]; rfl⟩

theorem exists_keyHashWithin {rank : Slot → Nat} (hc : h.Coherent)
    (hrank : ∀ s p, h.find? s = some p → p.isList = false → ∀ t ∈ p.children, rank t < rank s)
    {n : Nat} (hv : h.Names v) (hn : ∀ s, v = .ref s → rank s < n) :
    ∃ r, h.keyHashWithin n v = .ok r := by
  induction n generalizing v with
  | zero =>
    cases v with
    | ref s => exact absurd (hn s rfl) (Nat.not_lt_zero _)
    | _ => exact ⟨_, rfl⟩
  | succ n ih =>
    cases v with
    | ref s =>
      obtain ⟨p, hread, hp⟩ := exists_read hv
      rw [keyHashWithin, hread]
      cases p with
      | tuple items =>
        have hitems : ∀ x ∈ items, ∃ r, h.keyHashWithin n x = .ok r := by
          intro x hx
          refine ih (hc.closed.names hp hx) ?_
          rintro t rfl
          have hlt := hrank s _ hp rfl t (Payload.mem_children_of_part hx)
          have := hn s rfl
          omega
        obtain ⟨words, hwords⟩ := exists_all hitems
        refine ⟨words.map Mixing.sequence, ?_⟩
        show (KeyHash.all (h.keyHashWithin n) items).map _ = _
        rw [hwords]
        rfl
      | _ => exact ⟨_, rfl⟩
    | _ => exact ⟨_, rfl⟩

/-- The search for the hash of a value in use comes to an end. -/
theorem exists_keyHash (hc : h.Coherent) (hv : h.Names v) : ∃ r, h.keyHash v = .ok r := by
  obtain ⟨rank, hsize, hrank⟩ := hc.layered.bounded hc.closed
  refine exists_keyHashWithin hc hrank hv ?_
  rintro s rfl
  obtain ⟨p, -, hp⟩ := exists_read hv
  exact Nat.lt_succ_of_lt (hsize s p hp)

theorem keyHash_eq_some_iff (hc : h.Coherent) (hv : h.Names v) {word : UInt64} :
    h.keyHash v = .ok (some word) ↔ h.Hashes v word := by
  constructor
  · exact Hashes.of_keyHash
  · rintro ⟨n, hn⟩
    obtain ⟨r, hr⟩ := exists_keyHash hc hv
    rw [hr, keyHashWithin_unique hr hn]

end Heap

end ValueHeap
