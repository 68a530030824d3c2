import ValueHeap.Proofs.Heap.Removable

/-!
# Values on top of a heap

An operation starts on a heap with references held from outside, and makes values of its own as it
goes.  What it has at any time is the heap that it started on, whole, with its own values on top.

## What is here

* `slotsOf`, `partsOf` and `elementsOf` — the slots of values, and the values of entries and of
  elements, each as often as it occurs.
* `Heap.Carries` — a heap that still holds what another one does, with values on top of it.
* `Heap.Carries.restored` — with no value on top of it, it holds nothing else.
* `Heap.Carries.keysFit` — keys go on fitting while they are carried.
-/

set_option autoImplicit false

namespace ValueHeap

/-! ## Values, each as often as it occurs -/

/-- Putting something else in the place of an item exchanges the two. -/
theorem coe_set_add {α : Type} {l : List α} {i : Nat} {a : α} (b : α) (hi : l[i]? = some a) :
    (l.set i b : Multiset α) + {a} = l + {b} := by
  induction l generalizing i with
  | nil => simp at hi
  | cons x xs ih =>
    cases i with
    | zero =>
      rw [List.getElem?_cons_zero, Option.some_inj] at hi
      subst hi
      rw [List.set_cons_zero, ← Multiset.cons_coe, ← Multiset.cons_coe, ← Multiset.singleton_add,
        ← Multiset.singleton_add]
      ac_rfl
    | succ i =>
      rw [List.set_cons_succ, ← Multiset.cons_coe, ← Multiset.cons_coe, Multiset.cons_add,
        Multiset.cons_add, ih hi]

/-- The slots that values refer to. -/
def slotsOf (values : Multiset Value) : Multiset Slot := values.filterMap Value.slot?

@[simp] theorem slotsOf_zero : slotsOf 0 = 0 := rfl

@[simp] theorem slotsOf_add (vs ws : Multiset Value) :
    slotsOf (vs + ws) = slotsOf vs + slotsOf ws :=
  Multiset.filterMap_add Value.slot? vs ws

@[simp] theorem slotsOf_ref (s : Slot) : slotsOf {.ref s} = {s} := rfl

theorem slotsOf_coe (vs : List Value) : slotsOf vs = (vs.filterMap Value.slot? : List Slot) := rfl

theorem mem_slotsOf {vs : Multiset Value} {s : Slot} : s ∈ slotsOf vs ↔ .ref s ∈ vs := by
  refine (Multiset.mem_filterMap _ _).trans ⟨?_, fun hs => ⟨.ref s, hs, rfl⟩⟩
  rintro ⟨v, hv, hs⟩
  rwa [← Value.eq_ref_of_slot? hs]

/-- The values that entries are made of. -/
def partsOf (entries : List Entry) : Multiset Value := entries.flatMap Entry.parts

theorem partsOf_append (entries rest : List Entry) :
    partsOf (entries ++ rest) = partsOf entries + partsOf rest := by
  rw [partsOf, partsOf, partsOf, List.flatMap_append, ← Multiset.coe_add]

theorem partsOf_singleton (e : Entry) : partsOf [e] = {e.key.value} + {e.value} := rfl

theorem partsOf_set {entries : List Entry} {i : Nat} {e : Entry} (value : Value)
    (hi : entries[i]? = some e) :
    {e.value} + partsOf (entries.set i { e with value }) = {value} + partsOf entries := by
  have hbind (l : List Entry) : partsOf l = (l : Multiset Entry).bind fun e => e.parts :=
    (Multiset.coe_bind l Entry.parts).symm
  have hset := congrArg (fun m => m.bind fun e => (e.parts : Multiset Value))
    (coe_set_add { e with value } hi)
  rw [Multiset.add_bind, Multiset.add_bind, Multiset.singleton_bind, Multiset.singleton_bind,
    ← hbind, ← hbind] at hset
  refine add_left_cancel (a := ({e.key.value} : Multiset Value)) ?_
  calc {e.key.value} + ({e.value} + partsOf (entries.set i { e with value }))
    _ = partsOf (entries.set i { e with value }) + ({e.key.value} + {e.value}) := by ac_rfl
    _ = partsOf entries + ({e.key.value} + {value}) := hset
    _ = {e.key.value} + ({value} + partsOf entries) := by ac_rfl

/-- The values that elements are made of. -/
def elementsOf (elements : List HashedKey) : Multiset Value := elements.map HashedKey.value

theorem elementsOf_cons (e : HashedKey) (elements : List HashedKey) :
    elementsOf (e :: elements) = {e.value} + elementsOf elements := by
  rw [Multiset.singleton_add]
  rfl

theorem mem_elementsOf {elements : List HashedKey} {key : HashedKey} (hk : key ∈ elements) :
    key.value ∈ elementsOf elements :=
  Multiset.mem_coe.2 (List.mem_map_of_mem hk)

theorem mem_partsOf_of_key {entries : List Entry} {key : HashedKey}
    (hk : key ∈ entries.map Entry.key) : key.value ∈ partsOf entries := by
  obtain ⟨e, he, rfl⟩ := List.mem_map.1 hk
  exact Multiset.mem_coe.2 (List.mem_flatMap.2 ⟨e, he, List.mem_cons_self⟩)

/-! ## Carrying values -/

/-- The heap still holds whatever the start heap does, and beside the references held from outside
there are those of some values.  Giving them up leads back to the start. -/
structure Heap.Carries (start : Heap) (held : Multiset Slot) (mine : Multiset Value)
    (h : Heap) : Prop where
  sound : h.Sound (slotsOf mine + held)
  kept : start.Extends h
  removable : start.Removable h

namespace Heap

variable {start h k : Heap} {held : Multiset Slot} {mine : Multiset Value}

theorem Carries.refl (hs : h.Sound held) : h.Carries held 0 h :=
  ⟨by rwa [slotsOf_zero, zero_add], Extends.refl h, Removable.refl h⟩

/-- Values without a slot can come and go. -/
theorem Carries.of_slots {mine' : Multiset Value} (hh : start.Carries held mine h)
    (hslots : slotsOf mine' = slotsOf mine) : start.Carries held mine' h :=
  ⟨hslots ▸ hh.sound, hh.kept, hh.removable⟩

/-- What is carried on top of a heap is carried on top of what that heap carries. -/
theorem Carries.trans {more : Multiset Value} (hh : start.Carries held mine h)
    (hk : h.Carries (slotsOf mine + held) more k) : start.Carries held (more + mine) k :=
  ⟨by rw [slotsOf_add, add_assoc]; exact hk.sound, hh.kept.trans hk.kept,
    hh.removable.trans hh.sound.closed hk.kept hk.removable⟩

/-- What is carried one level further down is carried when the level is left. -/
theorem Carries.leave (hh : Carries { start with depth := start.depth + 1 } held mine h) :
    start.Carries held mine h.leave where
  sound := hh.sound.beside h.budget (h.depth - 1)
  kept := hh.kept
  removable :=
    { founded := hh.removable.founded
      charged := hh.removable.charged
      depth := congrArg (· - 1) hh.removable.depth
      limits := hh.removable.limits }

/-- **A heap that carries nothing is back where it started**: every slot holds what it did, and as
many levels are entered and as much memory is in use. -/
theorem Carries.restored (hs : start.Sound held) (hh : start.Carries held 0 h) :
    (∀ s, h.cell? s = start.cell? s) ∧ h.depth = start.depth ∧ h.memory? = start.memory? :=
  hh.removable.restored hs (zero_add held ▸ hh.sound) hh.kept

/-- Values that are carried are in use. -/
theorem Carries.names (hh : start.Carries held mine h) {v : Value} (hv : v ∈ mine) :
    h.Names v := by
  rintro s rfl
  exact hh.sound.find?_of_held (Multiset.mem_add.2 (Or.inl (mem_slotsOf.2 hv)))

/-- Values in use stay in use. -/
theorem Extends.names (hext : h.Extends k) {v : Value} (hv : h.Names v) : k.Names v := by
  intro s hs
  obtain ⟨p, hp⟩ := Option.isSome_iff_exists.1 (hv s hs)
  rw [hext s p hp]
  rfl

/-- Keys keep fitting while they are carried, whatever else is released or put in use. -/
theorem Carries.keysFit {keys : List HashedKey} {mine' : Multiset Value}
    (hh : start.Carries held mine h) (hfit : h.KeysFit keys) (hk : start.Carries held mine' k)
    (hag : h.Agree k) (hkeys : ∀ key ∈ keys, key.value ∈ mine') : k.KeysFit keys :=
  hfit.of_agree hag hh.sound.closed hk.sound.closed fun key hkey => hk.names (hkeys key hkey)

theorem fits_dict {entries : List Entry} (hk : h.KeysFit (entries.map Entry.key)) :
    h.Fits (.dict entries) :=
  ⟨hk, fun _ hs => absurd hs List.not_mem_nil⟩

theorem fits_set {elements : List HashedKey} (hk : h.KeysFit elements) : h.Fits (.set elements) :=
  ⟨hk, fun _ hs => absurd hs List.not_mem_nil⟩

end Heap

end ValueHeap
