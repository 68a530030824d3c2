import Mathlib.Order.WellFounded
import ValueHeap.Proofs.Heap.Sound

/-!
# Heaps that can go back to where they started

An operation that fails gives back the references that it took and the values that it made.  That
this undoes all it did is more than a matter of counts: slots that refer to each other in a circle
would keep each other in use.  So it is kept track of that the slots filled since the start do not,
and that the memory in use has changed by the size of what they hold.

## What is here

* `Heap.NewParent` — a slot filled since the start that refers to another one.
* `Heap.Removable` — what is kept track of, and that it is kept when references are counted, when
  slots are emptied and when they are filled.
* `Heap.Removable.restored` — **when nothing is held on top of a start heap, its slots are what they
  were**, and so is the memory in use.
-/

set_option autoImplicit false

namespace ValueHeap.Heap

variable {start h k : Heap} {held held' : Multiset Slot} {s : Slot} {c : Cell} {p : Payload}

/-! ## What changes beside the slots -/

/-- The size of all contents in use. -/
def contentsSize (h : Heap) : Nat := h.total Payload.size

/-- The memory in use, where it is counted. -/
def memory? (h : Heap) : Option Nat := h.budget.usage?.map Usage.memory

/-- The first slot was not in use at the start, and refers to the second one. -/
def NewParent (start h : Heap) (s t : Slot) : Prop :=
  start.find? s = none ∧ ∃ p, h.find? s = some p ∧ t ∈ p.children

/-- What has been filled since the start can be emptied again. -/
structure Removable (start h : Heap) : Prop where
  /-- No slots filled since the start refer to each other in a circle. -/
  founded : WellFounded (start.NewParent h)
  /-- The memory in use has changed by the size of contents. -/
  charged : h.memory?.map (· + start.contentsSize) = start.memory?.map (· + h.contentsSize)
  /-- As many levels are entered. -/
  depth : h.depth = start.depth
  /-- The same limits apply. -/
  limits : h.budget.limits = start.budget.limits

/-! ## The start of an operation, and operations one after the other -/

theorem Removable.refl (h : Heap) : h.Removable h where
  founded := ⟨fun t => .intro t fun s hs => by
    obtain ⟨hnone, p, hp, -⟩ := hs
    rw [hnone] at hp
    cases hp⟩
  charged := rfl
  depth := rfl
  limits := rfl

/-- Contents filled since a heap on the way may refer to those filled before, but not the other way
round. -/
theorem NewParent.founded_trans (hclosed : h.Closed) (hk : h.Extends k)
    (hh : WellFounded (start.NewParent h)) (hhk : WellFounded (h.NewParent k)) :
    WellFounded (start.NewParent k) := by
  have hold (t : Slot) (ht : h.find? t = none) : Acc (start.NewParent k) t := by
    induction t using hhk.induction with
    | _ t ih =>
      refine .intro t fun s hs => ?_
      obtain ⟨-, p, hp, hmem⟩ := hs
      have hs : h.find? s = none := Option.eq_none_iff_forall_ne_some.2 fun q hq => by
        obtain rfl : p = q := Option.some.inj (hp.symm.trans (hk s q hq))
        have hin := hclosed s p hq t hmem
        rw [ht] at hin
        cases hin
      exact ih s ⟨hs, p, hp, hmem⟩ hs
  refine ⟨fun t => ?_⟩
  induction t using hh.induction with
  | _ t ih =>
    refine .intro t fun s hs => ?_
    obtain ⟨hnew, p, hp, hmem⟩ := hs
    cases hs : h.find? s with
    | none => exact hold s hs
    | some q =>
      obtain rfl : p = q := Option.some.inj (hp.symm.trans (hk s q hs))
      exact ih s ⟨hnew, p, hs, hmem⟩

/-- What is charged on the way from one amount to another, and from there to a third. -/
theorem charged_trans {a b c : Option Nat} {l m n : Nat}
    (hab : b.map (· + l) = a.map (· + m)) (hbc : c.map (· + m) = b.map (· + n)) :
    c.map (· + l) = a.map (· + n) := by
  cases a with
  | none =>
    obtain rfl : b = none := Option.map_eq_none_iff.1 hab
    rw [Option.map_none, Option.map_eq_none_iff] at hbc
    rw [hbc]
    rfl
  | some a =>
    obtain ⟨b, rfl, hb⟩ := Option.map_eq_some_iff.1 hab
    obtain ⟨c, rfl, hc⟩ := Option.map_eq_some_iff.1 hbc
    rw [Option.map_some, Option.map_some, Option.some_inj]
    dsimp only at hb hc ⊢
    omega

theorem Removable.trans (hh : start.Removable h) (hclosed : h.Closed) (hhk : h.Extends k)
    (hk : h.Removable k) : start.Removable k where
  founded := NewParent.founded_trans hclosed hhk hh.founded hk.founded
  charged := charged_trans hh.charged hk.charged
  depth := hk.depth.trans hh.depth
  limits := hk.limits.trans hh.limits

/-! ## Changes of a slot -/

/-- Contents that were in use before refer to no more slots than before. -/
theorem Removable.founded_of_extends (hh : start.Removable h) (hkh : k.Extends h) :
    WellFounded (start.NewParent k) :=
  Subrelation.wf (fun ⟨hs, p, hp, hmem⟩ => ⟨hs, p, hkh _ p hp, hmem⟩) hh.founded

theorem Removable.put (hh : start.Removable h) {n : Nat} (hc : h.cell? s = some c) :
    start.Removable (h.put s { c with refcount := n }) where
  founded := hh.founded_of_extends (extends_put hc (by rfl)).2
  charged := by
    have hsize := total_put (f := Payload.size) (d := { c with refcount := n }) hc
    have hsame : (h.put s { c with refcount := n }).contentsSize = h.contentsSize :=
      Nat.add_right_cancel hsize
    rw [hsame]
    exact hh.charged
  depth := hh.depth
  limits := hh.limits

theorem memory?_vacate (h : Heap) (s : Slot) (c : Cell) :
    (h.vacate s c).memory? = h.memory?.map (· - c.payload.size) := by
  rw [memory?, memory?, Heap.vacate]
  cases h.budget <;> rfl

theorem Removable.vacate (hh : start.Removable h) (hext : start.Extends h)
    (hc : h.cell? s = some c) (hs : start.find? s = none) :
    start.Removable (h.vacate s c) where
  founded := hh.founded_of_extends extends_vacate
  charged := by
    have hsize : (h.vacate s c).contentsSize + c.payload.size = h.contentsSize := total_vacate hc
    have hle : start.contentsSize ≤ (h.vacate s c).contentsSize :=
      (hext.vacate (c := c) hs).total_le
    have hcharged := hh.charged
    rw [memory?_vacate]
    cases hstart : start.memory? with
    | none =>
      rw [hstart, Option.map_none, Option.map_eq_none_iff] at hcharged
      rw [hcharged]
      rfl
    | some m =>
      rw [hstart] at hcharged
      obtain ⟨n, hn, hmem⟩ := Option.map_eq_some_iff.1 hcharged
      rw [hn, Option.map_some, Option.map_some, Option.map_some, Option.some_inj]
      -- no more is refunded than was charged, since the contents at the start are still there
      dsimp only at hmem ⊢
      omega
  depth := hh.depth
  limits := (Budget.limits_refund h.budget c.payload.size).trans hh.limits

theorem budget_place (h : Heap) (p : Payload) : (h.place p).2.budget = h.budget := by
  rw [Heap.place]
  cases h.free <;> rfl

theorem depth_place (h : Heap) (p : Payload) : (h.place p).2.depth = h.depth := by
  rw [Heap.place]
  cases h.free <;> rfl

/-- A slot that nothing refers to can be filled. -/
theorem NewParent.founded_place (hfree : h.FreeExact) (hzero : h.references (h.place p).1 = 0)
    (hself : (h.place p).1 ∉ p.children) (hh : WellFounded (start.NewParent h)) :
    WellFounded (start.NewParent (h.place p).2) := by
  have hroot : Acc (start.NewParent (h.place p).2) (h.place p).1 := by
    refine .intro _ fun s hs => ?_
    obtain ⟨-, q, hq, hmem⟩ := hs
    by_cases hne : (h.place p).1 = s
    · rw [← hne, find?_of_cell? (cell?_place_self hfree p)] at hq
      cases hq
      exact absurd hmem hself
    · have := references_pos (find?_of_place hne hq) hmem
      omega
  refine ⟨fun t => ?_⟩
  induction t using hh.induction with
  | _ t ih =>
    refine .intro t fun s hs => ?_
    obtain ⟨hnew, q, hq, hmem⟩ := hs
    by_cases hne : (h.place p).1 = s
    · exact hne ▸ hroot
    · exact ih s ⟨hnew, q, find?_of_place hne hq, hmem⟩

/-! ## Operations of a heap -/

theorem Removable.retain (hh : start.Removable h) (hc : h.cell? s = some c) :
    start.Removable (h.retain s).2 := by
  rw [Heap.retain, access_eq_ok_iff.2 hc]
  exact hh.put hc

theorem Removable.release {pending : List Slot} (hstart : start.Sound held)
    (hsub : held ≤ held') (hs : h.Sound (pending + held')) (hext : start.Extends h)
    (hh : start.Removable h) : start.Removable (h.release pending).2 := by
  have hkeeps := Sound.release_keeps (P := fun k => start.Extends k ∧ start.Removable k) hstart hsub
    hs (fun k hk => hk.1)
    (fun k s c n hc hk => ⟨hk.1.trans (extends_put hc (by rfl)).1, hk.2.put hc⟩)
    (fun k s c hc hs hk => ⟨hk.1.vacate hs, hk.2.vacate hk.1 hc hs⟩) ⟨hext, hh⟩
  exact hkeeps.2

theorem memory?_of_charge {budget budget' : Budget} {size : Nat}
    (hb : budget.charge size = .ok budget') :
    budget'.usage?.map Usage.memory = (budget.usage?.map Usage.memory).map (· + size) := by
  cases budget with
  | untracked => cases hb; rfl
  | tracked limits usage =>
    obtain ⟨rfl, -⟩ := Budget.eq_of_charge hb
    rfl

/-- Contents whose references are held can be placed when they are charged for. -/
theorem Removable.place {budget : Budget} (hs : h.Sound (p.children + held))
    (hh : start.Removable h) (hb : h.budget.charge p.size = .ok budget) :
    start.Removable (Heap.place { h with budget } p).2 := by
  have hs' := hs.beside budget h.depth
  have hzero := hs'.counts (Heap.place { h with budget } p).1
  rw [refcount_of_cell?_none (cell?_place_fst hs'.free p), Multiset.count_add,
    Multiset.coe_count] at hzero
  refine ⟨NewParent.founded_place hs'.free (by omega) (fun hmem => ?_) hh.founded, ?_, ?_, ?_⟩
  · have := List.count_pos_iff.2 hmem
    omega
  · have hsize : (Heap.place { h with budget } p).2.contentsSize = h.contentsSize + p.size :=
      total_place hs'.free p
    refine charged_trans hh.charged ?_
    rw [memory?, budget_place, memory?_of_charge hb, hsize, Option.map_map]
    exact Option.map_congr fun m _ => by simp only [Function.comp_apply]; omega
  · rw [depth_place]
    exact hh.depth
  · rw [budget_place]
    exact (Budget.limits_charge hb).trans hh.limits

/-- Contents whose references are held are placed in a new slot or given back. -/
theorem Removable.allocate (hstart : start.Sound held) (hsub : held ≤ held')
    (hs : h.Sound (p.children + held')) (hext : start.Extends h) (hh : start.Removable h) :
    match h.allocate p with
    | (.ok _, k) => start.Removable k
    | (.error (.error _), k) => start.Removable k
    | (.error (.fault _), _) => True := by
  rw [Heap.allocate]
  cases hb : h.budget.charge p.size with
  | ok budget => exact hh.place hs hb
  | error e =>
    cases e with
    | fault f => trivial
    | error e =>
      obtain ⟨hok, -, -⟩ := hs.release
      have hkeep := Removable.release hstart hsub hs hext hh
      rcases hrelease : h.release p.children with ⟨r, k⟩
      rw [hrelease] at hok hkeep
      cases hok
      exact hkeep

/-! ## Back to the start -/

/-- What is referred to is referred to by contents of a slot in use. -/
theorem exists_parent (hs : 0 < h.references s) : ∃ t p, h.find? t = some p ∧ s ∈ p.children := by
  obtain ⟨c, hc, hmem⟩ := List.mem_flatMap.1 (List.count_pos_iff.1 hs)
  obtain ⟨o, ho, rfl : o = some c⟩ := List.mem_filterMap.1 hc
  obtain ⟨t, ht⟩ := List.getElem?_of_mem ho
  exact ⟨t, c.payload, find?_of_cell? (cell?_of_getElem? ht), hmem⟩

/-- A slot that was not in use at the start is not in use when nothing is held on top: what would
refer to it was not in use at the start either, and such slots do not refer to each other without
end. -/
theorem Removable.find?_none (hstart : start.Sound held) (hs : h.Sound held)
    (hext : start.Extends h) (hh : start.Removable h) (s : Slot) (hnone : start.find? s = none) :
    h.find? s = none := by
  induction s using hh.founded.induction with
  | _ s ih =>
    refine Option.eq_none_iff_forall_ne_some.2 fun p hp => ?_
    obtain ⟨c, hc, rfl⟩ := exists_cell?_of_find? hp
    have hpos := hs.used s c hc
    have hcount := hs.counts s
    have hheld : held.count s = 0 := Multiset.count_eq_zero.2 fun hmem => by
      have := hstart.find?_of_held hmem
      rw [hnone] at this
      cases this
    rw [refcount_of_cell? hc] at hcount
    obtain ⟨t, q, hq, hmem⟩ := exists_parent (h := h) (s := s) (by omega)
    cases ht : start.find? t with
    | none =>
      have := ih t ⟨ht, q, hq, hmem⟩ ht
      rw [hq] at this
      cases this
    | some r =>
      obtain rfl : r = q := Option.some.inj ((hext t r ht).symm.trans hq)
      have := hstart.closed t r ht s hmem
      rw [hnone] at this
      cases this

/-- A slot holds what its contents and its references say. -/
theorem cell?_eq (hfind : h.find? s = k.find? s) (hcount : h.refcount s = k.refcount s) :
    h.cell? s = k.cell? s := by
  rw [find?, find?] at hfind
  rw [refcount, refcount] at hcount
  cases hc : h.cell? s with
  | none =>
    rw [hc, Option.map_none] at hfind
    exact (Option.map_eq_none_iff.1 hfind.symm).symm
  | some c =>
    rw [hc, Option.map_some] at hfind
    obtain ⟨d, hd, hpayload⟩ := Option.map_eq_some_iff.1 hfind.symm
    rw [hc, hd] at hcount
    rw [hd]
    obtain ⟨n, p⟩ := c
    obtain ⟨m, q⟩ := d
    cases hpayload
    cases hcount
    rfl

/-- **When nothing is held on top of a start heap, its slots are what they were**, and so are the
levels entered and the memory in use. -/
theorem Removable.restored (hstart : start.Sound held) (hs : h.Sound held)
    (hext : start.Extends h) (hh : start.Removable h) :
    (∀ s, h.cell? s = start.cell? s) ∧ h.depth = start.depth ∧ h.memory? = start.memory? := by
  have hfind (s : Slot) : h.find? s = start.find? s := by
    cases hq : start.find? s with
    | none => exact hh.find?_none hstart hs hext s hq
    | some q => exact hext s q hq
  have hback : h.Extends start := fun s p hp => (hfind s).symm.trans hp
  refine ⟨fun s => cell?_eq (hfind s) ?_, hh.depth, ?_⟩
  · rw [hs.counts, hstart.counts, Nat.le_antisymm (hback.references_le s) (hext.references_le s)]
  · have hsize : h.contentsSize = start.contentsSize :=
      Nat.le_antisymm hback.total_le hext.total_le
    have hcharged := hh.charged
    rw [hsize] at hcharged
    exact Option.map_injective (fun m n => Nat.add_right_cancel) hcharged

end ValueHeap.Heap
