import Mathlib.Tactic.IntervalCases
import ValueHeap.Proofs.Copy.Corresponds
import ValueHeap.Proofs.Heap.Edits

/-!
# What a copy shares with its original

A copy shares the keys and the elements of its original, which have hashes, and the contents that a
copy is not made of.  Nothing that could change can be reached from either, with one exception: a
slice is shared like a text, but its parts may be anything, and a list among them is then reached
from the original and from the copy.

## What is here

* `Copied.shared_reached` and `Copied.shared_kind` — where the shared slots occur, and what they
  hold.
* `Copied.reached` — what can be reached from a copy was filled for it, or can be reached from a
  shared slot.
* `deepCopy_shares_behind_slices` — **what can be reached from both sides and could change is behind
  a slice**, and changes of other lists of one side are not seen from the other.
* `deepCopy_shares_list_in_slice` — a list behind a slice.
-/

set_option autoImplicit false

namespace ValueHeap

namespace Payload

/-- Whether the contents are a container that values can be put into. -/
def isMutable : Payload → Bool
  | list _ | dict _ | set _ => true
  | _ => false

/-- Contents that are copied refer to their keys and to the parts that are copied. -/
theorem mem_children_iff {p : Payload} {s : Slot} (hp : p.isRebuilt = true) :
    s ∈ p.children ↔ s ∈ slotsOf (elementsOf p.keys) ∨ .ref s ∈ p.copiedParts := by
  have hparts : s ∈ p.parts.filterMap Value.slot? ↔ .ref s ∈ p.parts := by
    rw [← Multiset.mem_coe, ← slotsOf_coe, mem_slotsOf, Multiset.mem_coe]
  rw [mem_slotsOf, elementsOf, Multiset.mem_coe]
  cases p with
  | list items => exact hparts.trans (or_iff_right List.not_mem_nil).symm
  | tuple items => exact hparts.trans (or_iff_right List.not_mem_nil).symm
  | set elements => exact hparts.trans (or_iff_left List.not_mem_nil).symm
  | dict entries =>
    refine hparts.trans ?_
    simp only [parts, keys, copiedParts, List.mem_flatMap, List.mem_map, Entry.parts,
      List.mem_cons, List.not_mem_nil, or_false]
    constructor
    · rintro ⟨e, he, hs | hs⟩
      · exact Or.inl ⟨e.key, ⟨e, he, rfl⟩, hs.symm⟩
      · exact Or.inr ⟨e, he, hs.symm⟩
    · rintro (⟨_, ⟨e, he, rfl⟩, hs⟩ | ⟨e, he, hs⟩)
      · exact ⟨e, he, Or.inl hs.symm⟩
      · exact ⟨e, he, Or.inr hs.symm⟩
  | _ => cases hp

end Payload

/-- Contents that a copy is not made of are a slice or have a hash. -/
theorem Heap.slice_or_hashable {h : Heap} {s : Slot} {p : Payload} (hp : h.find? s = some p)
    (hleaf : p.isRebuilt = false) :
    (∃ start stop step, h.find? s = some (.slice start stop step)) ∨ h.Hashable s := by
  have hhash {word : UInt64} (hword : h.keyHashWithin 1 (.ref s) = .ok (some word)) :
      h.Hashable s := ⟨word, 1, hword⟩
  rw [keyHashWithin, read_eq_ok_iff.2 hp] at hhash
  cases p with
  | slice start stop step => exact Or.inl ⟨start, stop, step, hp⟩
  | list | tuple | dict | set => cases hleaf
  | _ => exact Or.inr (hhash rfl)

/-- A slot that two values lead to by way of the same slice. -/
def Heap.BehindSlice (h : Heap) (v w : Value) (s : Slot) : Prop :=
  ∃ u start stop step, h.find? u = some (.slice start stop step) ∧ h.ReachedFrom v u ∧
    h.ReachedFrom w u ∧ h.Reaches u s

namespace Copied

variable {h k : Heap} {vs ws : List Value} {fresh shared : Multiset Slot} {r s u : Slot}

/-- What is shared can be reached from the originals and from the copies. -/
theorem shared_reached (hc : Copied h k vs ws fresh shared) (hu : u ∈ shared) :
    (∃ v ∈ vs, h.ReachedFrom v u) ∧ ∃ w ∈ ws, k.ReachedFrom w u := by
  induction hc with
  | nil => exact absurd hu (Multiset.notMem_zero u)
  | immediate _ _ ih =>
    obtain ⟨⟨v, hv, hvu⟩, w, hw, hwu⟩ := ih hu
    exact ⟨⟨v, List.mem_cons_of_mem _ hv, hvu⟩, w, List.mem_cons_of_mem _ hw, hwu⟩
  | @leaf s p vs ws fresh shared hp hleaf rest ih =>
    rcases Multiset.mem_cons.1 hu with rfl | hu
    · exact ⟨⟨_, List.mem_cons_self, u, rfl, .refl⟩, _, List.mem_cons_self, u, rfl, .refl⟩
    · obtain ⟨⟨v, hv, hvu⟩, w, hw, hwu⟩ := ih hu
      exact ⟨⟨v, List.mem_cons_of_mem _ hv, hvu⟩, w, List.mem_cons_of_mem _ hw, hwu⟩
  | @rebuilt s t p q vs ws fresh shared fresh' shared' hp hnew hq hrebuilt hkind hlength hkeys
      hparts rest ihparts ih =>
    rw [Multiset.mem_add, Multiset.mem_add] at hu
    have hrebuilt' := (Payload.isRebuilt_eq hkind).trans hrebuilt
    rcases hu with (hu | hu) | hu
    · refine ⟨⟨_, List.mem_cons_self, s, rfl, .single ⟨p, hp, ?_⟩⟩, _, List.mem_cons_self, t, rfl,
        .single ⟨q, hq, ?_⟩⟩
      · exact (Payload.mem_children_iff hrebuilt).2 (Or.inl hu)
      · exact (Payload.mem_children_iff hrebuilt').2 (Or.inl (hkeys ▸ hu))
    · obtain ⟨⟨v, hv, r, rfl, hr⟩, w, hw, r', rfl, hr'⟩ := ihparts hu
      refine ⟨⟨_, List.mem_cons_self, s, rfl, .head ⟨p, hp, ?_⟩ hr⟩, _, List.mem_cons_self, t, rfl,
        .head ⟨q, hq, ?_⟩ hr'⟩
      · exact (Payload.mem_children_iff hrebuilt).2 (Or.inr hv)
      · exact (Payload.mem_children_iff hrebuilt').2 (Or.inr hw)
    · obtain ⟨⟨v, hv, hvu⟩, w, hw, hwu⟩ := ih hu
      exact ⟨⟨v, List.mem_cons_of_mem _ hv, hvu⟩, w, List.mem_cons_of_mem _ hw, hwu⟩

/-- What is shared is a slice or has a hash. -/
theorem shared_kind (hcoherent : h.Coherent) (hc : Copied h k vs ws fresh shared)
    (hu : u ∈ shared) :
    (∃ start stop step, h.find? u = some (.slice start stop step)) ∨ h.Hashable u := by
  induction hc with
  | nil => exact absurd hu (Multiset.notMem_zero u)
  | immediate _ _ ih => exact ih hu
  | @leaf s p vs ws fresh shared hp hleaf rest ih =>
    rcases Multiset.mem_cons.1 hu with rfl | hu
    · exact Heap.slice_or_hashable hp hleaf
    · exact ih hu
  | @rebuilt s t p q vs ws fresh shared fresh' shared' hp hnew hq hrebuilt hkind hlength hkeys
      hparts rest ihparts ih =>
    rw [Multiset.mem_add, Multiset.mem_add] at hu
    rcases hu with (hu | hu) | hu
    · obtain ⟨x, hx, hslot⟩ := (Multiset.mem_filterMap _ _).1 hu
      obtain ⟨key, hkey, rfl⟩ := List.mem_map.1 (Multiset.mem_coe.1 hx)
      refine Or.inr ⟨key.hash, ?_⟩
      rw [← Value.eq_ref_of_slot? hslot]
      exact (hcoherent.fits s p hp).keys.hashes key hkey
    · exact ihparts hu
    · exact ih hu

/-- What can be reached from a copy was filled for it, or can be reached from what it shares. -/
theorem reached (hc : Copied h k vs ws fresh shared) (hr : .ref r ∈ ws) (hrs : k.Reaches r s) :
    s ∈ fresh ∨ ∃ u ∈ shared, k.Reaches u s := by
  induction hc generalizing r with
  | nil => cases hr
  | immediate hv _ ih =>
    rcases List.mem_cons.1 hr with rfl | hr
    · cases hv
    · exact ih hr hrs
  | leaf _ _ _ ih =>
    rcases List.mem_cons.1 hr with hr | hr
    · cases hr
      exact Or.inr ⟨_, Multiset.mem_cons_self _ _, hrs⟩
    · refine (ih hr hrs).imp_right ?_
      rintro ⟨u, hu, hus⟩
      exact ⟨u, Multiset.mem_cons_of_mem hu, hus⟩
  | @rebuilt s' t p q vs ws fresh shared fresh' shared' hp hnew hq hrebuilt hkind hlength hkeys
      hparts rest ihparts ih =>
    have hrebuilt' := (Payload.isRebuilt_eq hkind).trans hrebuilt
    simp only [Multiset.mem_cons, Multiset.mem_add]
    rcases List.mem_cons.1 hr with hr | hr
    · cases hr
      rcases hrs.cases_head with rfl | ⟨r', ⟨q', hq', hmem⟩, hrs'⟩
      · exact Or.inl (Or.inl rfl)
      · obtain rfl : q = q' := Option.some.inj (hq.symm.trans hq')
        rcases (Payload.mem_children_iff hrebuilt').1 hmem with hkey | hpart
        · exact Or.inr ⟨r', Or.inl (Or.inl (hkeys ▸ hkey)), hrs'⟩
        · rcases ihparts hpart hrs' with hs | ⟨u, hu, hus⟩
          · exact Or.inl (Or.inr (Or.inl hs))
          · exact Or.inr ⟨u, Or.inl (Or.inr hu), hus⟩
    · rcases ih hr hrs with hs | ⟨u, hu, hus⟩
      · exact Or.inl (Or.inr (Or.inr hs))
      · exact Or.inr ⟨u, Or.inr hu, hus⟩

end Copied

namespace Heap

/-- Contents with a hash are no container that values can be put into. -/
theorem Hashable.isMutable {h : Heap} {s : Slot} {p : Payload} (hs : h.Hashable s)
    (hp : h.find? s = some p) : p.isMutable = false := by
  obtain ⟨word, n, hn⟩ := hs
  cases n with
  | zero => cases hn
  | succ n =>
    rw [keyHashWithin, read_eq_ok_iff.2 hp] at hn
    cases p with
    | list | dict | set => cases hn
    | _ => rfl

end Heap

/-- A container that can be reached from a value and from its copy is behind a slice. -/
theorem behindSlice_of_copied {h k : Heap} {v w : Value} {fresh shared : Multiset Slot}
    (hcoherent : h.Coherent) (hv : h.Names v) (hgrown : h.Grown k fresh shared)
    (hcopied : Copied h k [v] [w] fresh shared) {s : Slot} {p : Payload}
    (hp : k.find? s = some p) (hmutable : p.isMutable = true) (hvs : k.ReachedFrom v s)
    (hws : k.ReachedFrom w s) : k.BehindSlice v w s := by
  have hkeeps := hgrown.keeps
  obtain ⟨-, hold⟩ := hvs.of_extends hcoherent.closed hkeeps hv
  obtain ⟨q, hq⟩ := Option.isSome_iff_exists.1 hold
  obtain rfl : q = p := Option.some.inj ((hkeeps s q hq).symm.trans hp)
  obtain ⟨r, rfl, hr⟩ := hws
  rcases hcopied.reached List.mem_cons_self hr with hfresh | ⟨u, hu, hus⟩
  · obtain ⟨hnone, -⟩ := hgrown.filled s hfresh
    rw [Heap.find?, hnone] at hq
    cases hq
  · obtain ⟨⟨v', hv', hvu⟩, w', hw', hwu⟩ := hcopied.shared_reached hu
    obtain rfl := List.mem_singleton.1 hv'
    obtain rfl := List.mem_singleton.1 hw'
    rcases hcopied.shared_kind hcoherent hu with ⟨start, stop, step, hslice⟩ | hhash
    · exact ⟨u, start, stop, step, hkeeps _ _ hslice, hvu.mono hkeeps, hwu, hus⟩
    · -- from a shared key nothing that could change can be reached, in the old heap or the new one
      obtain ⟨-, hused⟩ := hvu.of_extends hcoherent.closed (Heap.Extends.refl h) hv
      obtain ⟨hus, -⟩ := hus.of_extends hcoherent.closed hkeeps hused
      have hfixed := (hhash.reaches hcoherent.fits hus).isMutable hq
      rw [hmutable] at hfixed
      cases hfixed

/-! ## Copies in all that can come about -/

/-- **What a value and its copy share, and could change, is behind a slice that they share.**  Lists
that can be reached from one of the two in another way can be changed in any way, and nothing that
is written out of the other one changes. -/
theorem deepCopy_shares_behind_slices {budget : Budget} {c : Custody} (hc : Reachable budget c)
    {v w : Value} (hv : c.heap.Names v) (hw : (deepCopy v c.heap).result = .ok w) {k : Heap}
    (hk : k = (deepCopy v c.heap).heap) :
    (∀ s p, k.find? s = some p → p.isMutable = true → k.ReachedFrom v s → k.ReachedFrom w s →
      k.BehindSlice v w s) ∧
    (∀ edits : List Heap.Edit,
      (∀ e ∈ edits, k.ReachedFrom w e.target ∧ ¬k.BehindSlice v w e.target) →
        (k.editAll edits).snapshot v = k.snapshot v) ∧
    ∀ edits : List Heap.Edit,
      (∀ e ∈ edits, k.ReachedFrom v e.target ∧ ¬k.BehindSlice v w e.target) →
        (k.editAll edits).snapshot w = k.snapshot w := by
  have hs := hc.sound
  obtain ⟨fresh, shared, -, hgrown, hcopied⟩ := copies_deepCopy hs.closed hs.free hv hw
  rw [add_zero, add_zero, ← hk] at hgrown
  rw [← hk] at hcopied
  have hbehind {s : Slot} {p : Payload} := behindSlice_of_copied (s := s) (p := p) hs.coherent hv
    hgrown hcopied
  refine ⟨fun s p hp hmutable => hbehind hp hmutable, fun edits hedits => ?_,
    fun edits hedits => ?_⟩
  · refine Heap.snapshot_editAll fun e he items hlist hreach => ?_
    exact (hedits e he).2 (hbehind hlist rfl hreach (hedits e he).1)
  · refine Heap.snapshot_editAll fun e he items hlist hreach => ?_
    exact (hedits e he).2 (hbehind hlist rfl (hedits e he).1 hreach)

/-- A number that is appended to the copy of an inner list is not seen in the original. -/
theorem deepCopy_shares_behind_slices_nested :
    ∃ c : Custody, Reachable .untracked c ∧ c.heap.find? 1 = some (.list [.ref 0]) ∧
      (deepCopy (.ref 1) c.heap).result = .ok (.ref 3) ∧
      (deepCopy (.ref 1) c.heap).heap.find? 3 = some (.list [.ref 2]) ∧
      ((deepCopy (.ref 1) c.heap).heap.editAll [.push 2 (.int 7)]).snapshot (.ref 1) =
        (deepCopy (.ref 1) c.heap).heap.snapshot (.ref 1) := by
  have hlists : Reachable .untracked _ :=
    .result [.ref 1] .start (Request.permitted_build (.list [.list []]) _) rfl
  have hnames := hlists.names (v := .ref 1) (by decide)
  obtain ⟨-, hedits, -⟩ := deepCopy_shares_behind_slices hlists hnames (w := .ref 3) rfl rfl
  refine ⟨_, hlists, rfl, rfl, rfl, hedits _ fun e he => ?_⟩
  obtain rfl := List.mem_singleton.1 he
  refine ⟨⟨3, rfl, .single ⟨.list [.ref 2], rfl, List.mem_singleton.2 rfl⟩⟩, ?_⟩
  -- no slot holds a slice
  rintro ⟨u, start, stop, step, hu, -⟩
  obtain ⟨cell, hcell, -⟩ := Heap.exists_cell?_of_find? hu
  have hlt : u < 4 := Heap.lt_size_of_cell? hcell
  interval_cases u <;> cases hu

/-- **A list in a slice is shared with a copy.**  It can be reached from the original and from the
copy, and what is appended to it by way of the copy is seen in the original. -/
theorem deepCopy_shares_list_in_slice :
    ∃ (c : Custody) (w : Value), Reachable .untracked c ∧ .ref 1 ∈ c.owned ∧
      (deepCopy (.ref 1) c.heap).result = .ok w ∧
      (deepCopy (.ref 1) c.heap).heap.find? 0 = some (.list [.int 1]) ∧
      (deepCopy (.ref 1) c.heap).heap.ReachedFrom (.ref 1) 0 ∧
      (deepCopy (.ref 1) c.heap).heap.ReachedFrom w 0 ∧
      (deepCopy (.ref 1) c.heap).heap.snapshot (.ref 1) =
        .ok (.slice (.list [.int 1]) .none .none) ∧
      ((deepCopy (.ref 1) c.heap).heap.editAll [.push 0 (.int 2)]).snapshot (.ref 1) =
        .ok (.slice (.list [.int 1, .int 2]) .none .none) := by
  have hslice : Reachable .untracked _ :=
    .result [.ref 1] .start (Request.permitted_build (.slice (.list [.int 1]) .none .none) _) rfl
  have hreached : (deepCopy (.ref 1) (Custody.after ⟨Heap.empty .untracked, 0⟩
      (.build (.slice (.list [.int 1]) .none .none)) [.ref 1]).heap).heap.ReachedFrom (.ref 1) 0 :=
    ⟨1, rfl, .single ⟨.slice (.ref 0) .none .none, rfl, List.mem_singleton.2 rfl⟩⟩
  exact ⟨_, .ref 1, hslice, by decide, rfl, rfl, hreached, hreached, rfl, rfl⟩

end ValueHeap
