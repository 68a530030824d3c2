import ValueHeap.Proofs.Object.Building

/-!
# The memory that a value takes

The slots of a value that spells an object hold as many bytes as the footprint of the object says.
Where memory in use is counted, all of them are in the count, and the count fits a word.  So the
footprint of what was built on such a heap fits a word too.

## What is here

* `Heap.Spells.footprints_eq` — the footprint, as the sizes of contents.
* `Heap.contentsSize_add_le` — what new slots hold comes on top of what was there.
* `Object.footprint_lt_of_build` — the footprint of what was built where memory is counted.
-/

set_option autoImplicit false

namespace ValueHeap

namespace Heap

variable {start h : Heap} {levels : Nat} {vs : List Value} {os : List Object} {o : Object}
  {slots : Multiset Slot}

/-- The size of what a slot holds. -/
def sizeAt (h : Heap) (s : Slot) : Nat := ((h.find? s).map Payload.size).getD 0

/-! ## The footprint -/

theorem footprints_pairParts (pairs : List (Object × Object)) :
    Object.footprints (pairs.flatMap Object.pairParts) = Object.pairFootprints pairs := by
  induction pairs with
  | nil => rfl
  | cons pair pairs ih =>
    rw [List.flatMap_cons, Object.pairParts, List.cons_append, List.singleton_append,
      Object.footprints, Object.footprints, ih, Object.pairFootprints]

theorem footprint_of_describes {p : Payload} {parts : List Object}
    (ho : p.Describes levels parts o) (hparts : h.Spells levels p.parts parts slots) :
    o.footprint = p.size + Object.footprints parts := by
  have hlength := hparts.length_eq
  cases ho with
  | list | tuple =>
    rw [Payload.parts] at hlength
    rw [Object.footprint, Payload.size, hlength]
  | set elements =>
    rw [Payload.parts, List.length_map] at hlength
    rw [Object.footprint, Payload.size, hlength]
  | @dict entries pairs =>
    obtain ⟨_, -, hkeys⟩ := hparts.keys
    have hlength := hkeys.length_eq
    rw [List.length_map, List.length_map, List.length_map] at hlength
    rw [Object.footprint, Payload.size, hlength, footprints_pairParts]
  | slice => simp only [Object.footprint, Object.footprints, Payload.size, Nat.add_zero]
  | _ => rfl

theorem footprint_of_immediate {v : Value} (hv : o.immediate? = some v) : o.footprint = 0 := by
  cases o <;> cases hv <;> rfl

/-- **The footprint is what the slots hold.** -/
theorem Spells.footprints_eq (hs : h.Spells levels vs os slots) :
    Object.footprints os = (slots.map h.sizeAt).sum := by
  induction hs with
  | nil => rfl
  | immediate hv _ ih => rw [Object.footprints, footprint_of_immediate hv, Nat.zero_add, ih]
  | @contents s p o parts vs os slots slots' hp ho hparts _ ihparts ih =>
    have hsize : h.sizeAt s = p.size := by
      rw [sizeAt, hp]
      rfl
    rw [Object.footprints, footprint_of_describes ho hparts, ihparts, ih, Multiset.map_cons,
      Multiset.sum_cons, Multiset.map_add, Multiset.sum_add, hsize, Nat.add_assoc]

/-! ## The contents of new slots -/

/-- What new slots hold comes on top of what was there. -/
theorem contentsSize_add_le (hnodup : slots.Nodup) (hkept : start.Extends h)
    (hfresh : ∀ s ∈ slots, start.find? s = none) :
    start.contentsSize + (slots.map h.sizeAt).sum ≤ h.contentsSize := by
  induction slots using Multiset.induction generalizing h with
  | empty => exact hkept.total_le
  | cons s slots ih =>
    obtain ⟨hnew, hnodup⟩ := Multiset.nodup_cons.1 hnodup
    obtain ⟨hs, hfresh⟩ := Multiset.forall_mem_cons.1 hfresh
    rw [Multiset.map_cons, Multiset.sum_cons]
    cases hc : h.cell? s with
    | none =>
      have hzero : h.sizeAt s = 0 := by
        rw [sizeAt, find?, hc]
        rfl
      rw [hzero, Nat.zero_add]
      exact ih hnodup hkept hfresh
    | some c =>
      -- without the contents of the first slot, the others hold what they did
      have hrest : slots.map (h.vacate s c).sizeAt = slots.map h.sizeAt := by
        refine Multiset.map_congr rfl fun t ht => ?_
        have hne : s ≠ t := fun heq => hnew (heq ▸ ht)
        rw [sizeAt, sizeAt, find?, find?, cell?_vacate_of_ne hne]
      have hle := ih hnodup (hkept.vacate (c := c) hs) hfresh
      have hsize : h.sizeAt s = c.payload.size := by
        rw [sizeAt, find?_of_cell? hc]
        rfl
      have htotal : (h.vacate s c).contentsSize + c.payload.size = h.contentsSize :=
        total_vacate hc
      rw [hrest] at hle
      omega

end Heap

/-! ## Memory in use -/

theorem Budget.memory_lt_of_charge {b c : Budget} {size : Nat} {usage : Usage}
    (hc : b.charge size = .ok c) (husage : c.usage? = some usage) : usage.memory < wordBound := by
  cases b with
  | untracked =>
    cases hc
    cases husage
  | tracked limits used =>
    obtain ⟨rfl, -, hword, -⟩ := Budget.eq_of_charge hc
    cases husage
    exact hword

/-- Where memory is counted, the count fits a word after an allocation. -/
theorem Action.yields_within_word {h : Heap} (p : Payload) :
    (Action.allocate p h).Yields fun _ k => ∀ m, k.memory? = some m → m < Budget.wordBound := by
  refine Action.yields_mono (Action.yields_placed p) ?_
  rintro _ _ ⟨budget, hb, rfl, rfl⟩ m hm
  obtain ⟨usage, husage, rfl⟩ := Option.map_eq_some_iff.1 hm
  refine Budget.memory_lt_of_charge hb ?_
  rwa [Heap.budget_place] at husage

namespace Object

/-- The last thing that is done for a value with a slot is to allocate it. -/
theorem yields_within_word (o : Object) (h : Heap) :
    (o.build h).Yields fun v k => v.slot?.isSome → ∀ m, k.memory? = some m →
      m < Budget.wordBound := by
  have hplaced (p : Payload) (k : Heap) : (Action.allocate p k).Yields fun v k =>
      v.slot?.isSome → ∀ m, k.memory? = some m → m < Budget.wordBound :=
    Action.yields_mono (Action.yields_within_word p) fun _ _ hm _ => hm
  have hany {α : Type} (x : Action α) (k : Heap) : (x k).Yields fun _ _ => True :=
    fun _ _ => trivial
  cases o with
  | bigInt n =>
    rw [build, Build.integer]
    split
    · exact Action.yields_pure fun hslot => by cases hslot
    · exact hplaced _ h
  | complex | str | bytes => exact hplaced _ h
  | list | tuple | dict | set =>
    exact Action.yields_bind (hany _ h) fun _ k _ => hplaced _ k
  | range first last step =>
    rw [build]
    cases Progression.make? first last step with
    | none => exact Action.yields_raise
    | some p => exact hplaced _ h
  | slice =>
    refine Action.yields_bind (hany _ h) fun _ k _ => ?_
    refine Action.yields_bind (hany _ k) fun _ l _ => ?_
    exact Action.yields_bind (hany _ l) fun _ m _ => hplaced _ m
  | standIn => exact Action.yields_raise
  | _ => exact Action.yields_pure fun hslot => by cases hslot

/-- **What was built where memory is counted has a footprint that fits a word.** -/
theorem footprint_lt_of_build {h : Heap} {held : Multiset Slot} {o : Object} {v : Value}
    (hs : h.Sound held) (hv : (o.build h).result = .ok v) (hcounted : h.memory?.isSome) :
    o.normal.footprint < Budget.wordBound := by
  have hmade := spelt o h held hs v hv
  obtain ⟨slots, hspells, hnodup, hfresh⟩ := hmade.spells
  have hsum := hspells.footprints_eq
  rw [footprints, footprints, Nat.add_zero] at hsum
  have hle := Heap.contentsSize_add_le hnodup hmade.carries.kept hfresh
  obtain ⟨m, hm⟩ := Option.isSome_iff_exists.1 hcounted
  have hcharged := hmade.carries.removable.charged
  rw [hm] at hcharged
  obtain ⟨n, hn, hmem⟩ := Option.map_eq_some_iff.1 hcharged
  rcases hspells.cases with himmediate | ⟨s, _, _, _, rfl, -⟩
  · rw [Heap.footprint_of_immediate himmediate]
    decide
  · have hlt := yields_within_word o h _ hv rfl n hn
    dsimp only at hmem
    omega

end Object

end ValueHeap
