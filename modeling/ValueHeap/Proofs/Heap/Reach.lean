import Mathlib.Logic.Relation
import ValueHeap.Proofs.Heap.Coherent

/-!
# What can be reached

A value leads to the slot that it names, from there to the slots that the contents refer to, and so
on.  Filling other slots adds nothing to what can be reached from a slot in use.

## What is here

* `Heap.Reaches` and `Heap.ReachedFrom` — the slots on the way from a slot, and from a value.
* `Heap.Reaches.of_extends` — what could be reached before is all that can be reached from there
  when other slots are filled.
* `Heap.Hashable` and `Heap.Hashable.reaches` — from contents with a hash nothing can be reached
  that has none.
-/

set_option autoImplicit false

namespace ValueHeap

namespace Heap

variable {h k : Heap} {s t : Slot} {p : Payload} {v : Value}

/-! ## The slots on the way -/

/-- The contents of one slot refer to another. -/
def Refers (h : Heap) (s t : Slot) : Prop := ∃ p, h.find? s = some p ∧ t ∈ p.children

/-- References lead from one slot to another, or the two are the same. -/
def Reaches (h : Heap) : Slot → Slot → Prop := Relation.ReflTransGen h.Refers

/-- References lead from a value to a slot. -/
def ReachedFrom (h : Heap) (v : Value) (s : Slot) : Prop := ∃ r, v = .ref r ∧ h.Reaches r s

theorem Reaches.mono (hhk : h.Extends k) (hst : h.Reaches s t) : k.Reaches s t :=
  Relation.ReflTransGen.mono (fun _ _ ⟨p, hp, hmem⟩ => ⟨p, hhk _ p hp, hmem⟩) s t hst

/-- **From a slot in use nothing more can be reached** when other slots are filled. -/
theorem Reaches.of_extends (hclosed : h.Closed) (hhk : h.Extends k) (hs : (h.find? s).isSome)
    (hst : k.Reaches s t) : h.Reaches s t ∧ (h.find? t).isSome := by
  induction hst with
  | refl => exact ⟨.refl, hs⟩
  | tail _ hlast ih =>
    obtain ⟨hreach, hmid⟩ := ih
    obtain ⟨p, hp, hmem⟩ := hlast
    obtain ⟨q, hq⟩ := Option.isSome_iff_exists.1 hmid
    obtain rfl : q = p := Option.some.inj ((hhk _ q hq).symm.trans hp)
    exact ⟨hreach.tail ⟨q, hq, hmem⟩, hclosed _ q hq _ hmem⟩

theorem ReachedFrom.mono (hhk : h.Extends k) (hs : h.ReachedFrom v s) : k.ReachedFrom v s := by
  obtain ⟨r, rfl, hr⟩ := hs
  exact ⟨r, rfl, hr.mono hhk⟩

theorem ReachedFrom.of_extends (hclosed : h.Closed) (hhk : h.Extends k) (hv : h.Names v)
    (hs : k.ReachedFrom v s) : h.ReachedFrom v s ∧ (h.find? s).isSome := by
  obtain ⟨r, rfl, hr⟩ := hs
  obtain ⟨hreach, hsome⟩ := hr.of_extends hclosed hhk (hv r rfl)
  exact ⟨⟨r, rfl, hreach⟩, hsome⟩

/-- What a part leads to can be reached by way of the slot that holds the part. -/
theorem ReachedFrom.part {x : Value} (hp : h.find? s = some p) (hx : x ∈ p.parts)
    (ht : h.ReachedFrom x t) : h.Reaches s t := by
  obtain ⟨r, rfl, hr⟩ := ht
  exact .head ⟨p, hp, Payload.mem_children_of_part hx⟩ hr

/-! ## Values with a hash -/

/-- The value in a slot has a hash. -/
def Hashable (h : Heap) (s : Slot) : Prop := ∃ word, h.Hashes (.ref s) word

/-- A class has a hash. -/
theorem hashable_of_class {name : String} {base : Option Slot}
    (hs : h.find? s = some (.userClass name base)) : h.Hashable s := by
  refine ⟨KeyHash.ofIdentity (.heap s), 1, ?_⟩
  rw [keyHashWithin, read_eq_ok_iff.2 hs]
  rfl

/-- Contents with a hash refer to nothing without one. -/
theorem Hashable.refers (hfits : ∀ s p, h.find? s = some p → h.Fits p) (hs : h.Hashable s)
    (hst : h.Refers s t) : h.Hashable t := by
  obtain ⟨word, n, hn⟩ := hs
  obtain ⟨p, hp, ht⟩ := hst
  have hclass (hmem : t ∈ p.classSlots) : h.Hashable t := by
    obtain ⟨name, base, hc⟩ := (hfits s p hp).classes t hmem
    exact hashable_of_class hc
  cases n with
  | zero => cases hn
  | succ n =>
    rw [keyHashWithin, read_eq_ok_iff.2 hp] at hn
    cases p with
    | tuple items =>
      simp only [KeyHash.ofPayload] at hn
      cases hall : KeyHash.all (h.keyHashWithin n) items with
      | error f => simp [hall, Except.map] at hn
      | ok found =>
        cases found with
        | none => simp [hall, Except.map] at hn
        | some words =>
          rw [KeyHash.all_eq_ok_some_iff, List.forall₂_iff_get] at hall
          obtain ⟨x, hx : x ∈ items, hslot⟩ := List.mem_filterMap.1 ht
          obtain rfl := Value.eq_ref_of_slot? hslot
          obtain ⟨i, hi, hix⟩ := List.getElem_of_mem hx
          have hword := hall.2 i hi (hall.1 ▸ hi)
          exact ⟨_, n, (congrArg (h.keyHashWithin n) hix).symm.trans hword⟩
    | userClass name base => exact hclass ht
    | userInstance cls => exact hclass ht
    | list => cases hn
    | dict => cases hn
    | set => cases hn
    | slice => cases hn
    | _ => exact absurd ht List.not_mem_nil

/-- **From contents with a hash nothing without one can be reached.** -/
theorem Hashable.reaches (hfits : ∀ s p, h.find? s = some p → h.Fits p) (hs : h.Hashable s)
    (hst : h.Reaches s t) : h.Hashable t := by
  induction hst with
  | refl => exact hs
  | tail _ hlast ih => exact ih.refers hfits hlast

end Heap

end ValueHeap
