import Mathlib.Order.WellFoundedSet
import ValueHeap.Proofs.Counts
import ValueHeap.Proofs.Heap.Reach

/-!
# What is left after releases

A slot is emptied by whoever gives up the last reference to it, and which release that is depends on
the order in which they come.  What is left in the end does not.

Counts alone cannot tell a slot that somebody owns from one that is kept in use by itself, by way of
others or directly.  Where there are no such circles, what is in use is what owners can get at.

## What is here

* `Action.giveUp` — values given up one after the other.
* `Heap.Acyclic` — no references lead from a slot back to it.
* `Heap.Sound.exists_owner` — without circles, whatever is in use can be reached from a slot that is
  held from outside.
* `Heap.Sound.release_perm` — the order of releases does not show.
* `release_complete_and_ordered` — both for all that can come about, and `circle_outlives_owner`
  why the first needs its hypothesis.
-/

set_option autoImplicit false

namespace ValueHeap

/-! ## One value after the other -/

/-- Releases in two parts are the first part and then, unless there was a fault, the second. -/
theorem Heap.release_append (h : Heap) (pending rest : List Slot) :
    h.release (pending ++ rest) =
      match h.release pending with
      | (.ok (), k) => k.release rest
      | (.error f, k) => (.error f, k) := by
  induction h, pending using Heap.release.induct with
  | case1 h => rw [List.nil_append, Heap.release.eq_1 h]
  | case2 h s pending f hf =>
    rw [List.cons_append, release_fault hf, release_fault hf]
  | case3 h s pending c hc hlt ih =>
    rw [access_eq_ok_iff] at hc
    rw [List.cons_append, release_shared hc hlt, release_shared hc hlt, ih]
  | case4 h s pending c hc hle ih =>
    rw [access_eq_ok_iff] at hc
    rw [List.cons_append, release_last hc hle, release_last hc hle, ← List.append_assoc, ih]

namespace Action

/-- The same for values. -/
theorem release_append (vs ws : List Value) :
    release (vs ++ ws) = release vs >>= fun _ => release ws := by
  funext h
  have hall : h.release ((vs ++ ws).filterMap Value.slot?) = _ :=
    (congrArg h.release List.filterMap_append).trans (h.release_append _ _)
  rcases hfirst : h.release (vs.filterMap Value.slot?) with ⟨f | u, k⟩ <;>
    simp only [hfirst] at hall
  · have hone := release_apply_error hfirst
    rw [bind_apply_error (congrArg Outcome.result hone), hone, release_apply_error hall]
  · have hone := release_apply_ok hfirst
    rw [bind_apply_ok (congrArg Outcome.result hone), hone]
    rcases hrest : k.release (ws.filterMap Value.slot?) with ⟨f | u, k'⟩ <;> rw [hrest] at hall
    · rw [release_apply_error hall, release_apply_error hrest]
      rfl
    · rw [release_apply_ok hall, release_apply_ok hrest]
      rfl

/-- Gives up values one after the other. -/
def giveUp (vs : List Value) : Action Unit := vs.forM fun v => release [v]

/-- Values given up one after the other are released together. -/
theorem giveUp_eq (vs : List Value) : giveUp vs = release vs := by
  induction vs with
  | nil =>
    funext h
    have hnone : h.release (([] : List Value).filterMap Value.slot?) = (.ok (), h) := by
      rw [List.filterMap_nil, Heap.release]
    rw [release_apply_ok hnone]
    rfl
  | cons v vs ih =>
    calc giveUp (v :: vs)
      _ = release [v] >>= fun _ => giveUp vs := rfl
      _ = release [v] >>= fun _ => release vs := by rw [ih]
      _ = release (v :: vs) := (release_append [v] vs).symm

end Action

namespace Heap

variable {h k k' : Heap} {held : Multiset Slot} {s t : Slot}

/-! ## Heaps without circles -/

/-- No references lead from a slot in use back to it. -/
def Acyclic (h : Heap) : Prop := ∀ s, ¬Relation.TransGen h.Refers s s

/-- A heap that holds less has no more circles. -/
theorem Acyclic.of_extends (hkh : k.Extends h) (hh : h.Acyclic) : k.Acyclic := fun s hs =>
  hh s (Relation.TransGen.mono (fun _ _ ⟨p, hp, hmem⟩ => ⟨p, hkh _ p hp, hmem⟩) s s hs)

/-- Cells that only refer to slots before their own make no circle. -/
theorem Acyclic.of_cells
    (hlt : ∀ (s : Slot) (c : Cell), h.cells[s]? = some (some c) → ∀ t ∈ c.payload.children, t < s) :
    h.Acyclic := fun s hs => by
  have hback (t : Slot) (ht : Relation.TransGen h.Refers s t) : t < s := by
    have hstep (s t : Slot) : h.Refers s t → t < s := by
      rintro ⟨p, hp, hmem⟩
      obtain ⟨c, hc, rfl⟩ := exists_cell?_of_find? hp
      exact hlt s c (Array.getElem?_toList ▸ getElem?_of_cell? hc) t hmem
    induction ht with
    | single hst => exact hstep _ _ hst
    | tail _ hlast ih => exact (hstep _ _ hlast).trans ih
  exact Nat.lt_irrefl s (hback s hs)

/-- The slots in use are finitely many, so one cannot go back from slot to slot without end. -/
theorem Acyclic.wellFoundedOn (hh : h.Acyclic) :
    {s | (h.find? s).isSome}.WellFoundedOn (Relation.TransGen h.Refers) := by
  have hfinite : {s | (h.find? s).isSome}.Finite := by
    refine (Set.finite_Iio h.cells.size).subset fun s hs => ?_
    obtain ⟨p, hp⟩ := Option.isSome_iff_exists.1 hs
    obtain ⟨c, hc, -⟩ := exists_cell?_of_find? hp
    exact lt_size_of_cell? hc
  have : IsStrictOrder Slot (Relation.TransGen h.Refers) :=
    { irrefl := hh
      trans := fun _ _ _ => Relation.TransGen.trans }
  exact hfinite.wellFoundedOn

/-- **Without circles, whatever is in use can be reached from a slot that is held.**  A slot that is
not held itself owes its references to contents in use, and these can be reached. -/
theorem Sound.exists_owner (hs : h.Sound held) (hh : h.Acyclic) (hsome : (h.find? s).isSome) :
    ∃ r ∈ held, h.Reaches r s := by
  refine hh.wellFoundedOn.induction (P := fun s => ∃ r ∈ held, h.Reaches r s) hsome
    fun s hsome ih => ?_
  by_cases hheld : s ∈ held
  · exact ⟨s, hheld, .refl⟩
  · obtain ⟨p, hp⟩ := Option.isSome_iff_exists.1 hsome
    obtain ⟨c, hc, -⟩ := exists_cell?_of_find? hp
    have hpos := hs.used s c hc
    have hcount := hs.counts s
    rw [refcount_of_cell? hc, Multiset.count_eq_zero.2 hheld] at hcount
    obtain ⟨t, q, hq, hmem⟩ := exists_parent (h := h) (s := s) (by omega)
    have hrefers : h.Refers t s := ⟨q, hq, hmem⟩
    have hparent : (h.find? t).isSome := hq ▸ rfl
    obtain ⟨r, hr, hreach⟩ := ih t hparent (.single hrefers)
    exact ⟨r, hr, hreach.tail hrefers⟩

/-- What can be reached from a slot in use is in use. -/
theorem Reaches.find?_isSome (hclosed : h.Closed) (hs : (h.find? s).isSome)
    (hst : h.Reaches s t) : (h.find? t).isSome :=
  (hst.of_extends hclosed (Extends.refl h) hs).2

/-- Without circles, the slots in use are those that can be reached from what is held. -/
theorem Sound.find?_isSome_iff (hs : h.Sound held) (hh : h.Acyclic) :
    (h.find? s).isSome ↔ ∃ r ∈ held, h.Reaches r s :=
  ⟨hs.exists_owner hh, fun ⟨_, hr, hreach⟩ =>
    hreach.find?_isSome hs.closed (hs.find?_of_held hr)⟩

/-- Without circles nothing is in use when nothing is held. -/
theorem Sound.live_eq_nil (hs : h.Sound 0) (hh : h.Acyclic) : h.live = [] := by
  refine List.eq_nil_iff_forall_not_mem.2 fun c hc => ?_
  obtain ⟨o, ho, rfl : o = some c⟩ := List.mem_filterMap.1 hc
  obtain ⟨s, hs'⟩ := List.getElem?_of_mem ho
  have hsome : (h.find? s).isSome := by
    rw [find?_of_cell? (cell?_of_getElem? hs')]
    rfl
  obtain ⟨r, hr, -⟩ := hs.exists_owner hh hsome
  exact absurd hr (Multiset.notMem_zero r)

/-! ## Releases in another order -/

/-- Two heaps that are sound for the same references and hold the contents of each other are the
same in every slot. -/
theorem Sound.cell?_eq (hs : k.Sound held) (hs' : k'.Sound held) (hext : k.Extends k')
    (hext' : k'.Extends k) (s : Slot) : k.cell? s = k'.cell? s := by
  refine Heap.cell?_eq (Option.ext fun p => ⟨hext s p, hext' s p⟩) ?_
  rw [hs.counts, hs'.counts, Nat.le_antisymm (hext.references_le s) (hext'.references_le s)]

/-- **The order of releases does not show.**  What is left after the releases in one order is sound
for what is still held, so it is kept by the releases in any other. -/
theorem Sound.release_perm {pending pending' : List Slot} (hs : h.Sound (pending + held))
    (hperm : pending.Perm pending') (s : Slot) :
    (h.release pending).2.cell? s = (h.release pending').2.cell? s := by
  have hs' : h.Sound (pending' + held) := Multiset.coe_eq_coe.2 hperm ▸ hs
  obtain ⟨-, hsound, hext⟩ := hs.release
  obtain ⟨-, hsound', hext'⟩ := hs'.release
  exact hsound.cell?_eq hsound' (Extends.release hsound le_rfl hs' hext)
    (Extends.release hsound' le_rfl hs hext') s

end Heap

/-! ## All that can come about -/

/-- Some of what is held can be released. -/
theorem Heap.Sound.giveUp {h : Heap} {owned : Multiset Value} {vs : List Value}
    (hs : h.Sound (slotsOf owned)) (hvs : (vs : Multiset Value) ≤ owned) :
    (Action.giveUp vs h).result = .ok () ∧
      (Action.giveUp vs h).heap = (h.release (vs.filterMap Value.slot?)).2 ∧
      h.Sound ((vs.filterMap Value.slot? : List Slot) + slotsOf (owned - vs)) := by
  have hs' : h.Sound ((vs.filterMap Value.slot? : List Slot) + slotsOf (owned - vs)) := by
    rwa [← slotsOf_coe, ← slotsOf_add, add_tsub_cancel_of_le hvs]
  have hrelease := Action.release_apply_ok (Prod.ext hs'.release.1 rfl)
  rw [Action.giveUp_eq, hrelease]
  exact ⟨rfl, rfl, hs'⟩

/-- **Releasing is complete and does not depend on the order.**  Where no references lead in a
circle, the slots in use are those that can be reached from what the caller owns, and once all of it
is given up, in whatever order, nothing is in use.  With or without circles, giving up values of the
caller's in one order or another leaves the same contents with the same counts in every slot. -/
theorem release_complete_and_ordered {budget : Budget} {c : Custody} (hc : Reachable budget c) :
    (c.heap.Acyclic →
        (∀ s, (c.heap.find? s).isSome ↔ ∃ v ∈ c.owned, c.heap.ReachedFrom v s) ∧
        ∀ vs : List Value, (vs : Multiset Value) = c.owned →
          (Action.giveUp vs c.heap).result = .ok () ∧ (Action.giveUp vs c.heap).heap.live = []) ∧
      ∀ vs ws : List Value, vs.Perm ws → (vs : Multiset Value) ≤ c.owned →
        (Action.giveUp vs c.heap).result = .ok () ∧ (Action.giveUp ws c.heap).result = .ok () ∧
          ∀ s, (Action.giveUp vs c.heap).heap.cell? s = (Action.giveUp ws c.heap).heap.cell? s := by
  have hs := hc.sound
  refine ⟨fun hacyclic => ⟨fun s => ?_, fun vs hvs => ?_⟩, fun vs ws hperm hvs => ?_⟩
  · rw [hs.find?_isSome_iff hacyclic]
    constructor
    · rintro ⟨r, hr, hreach⟩
      exact ⟨.ref r, mem_slotsOf.1 hr, r, rfl, hreach⟩
    · rintro ⟨_, hv, r, rfl, hreach⟩
      exact ⟨r, mem_slotsOf.2 hv, hreach⟩
  · obtain ⟨hok, hheap, hsound⟩ := hs.giveUp hvs.le
    rw [hvs, tsub_self] at hsound
    obtain ⟨-, hleft, hext⟩ := hsound.release
    rw [hheap]
    exact ⟨hok, hleft.live_eq_nil (hacyclic.of_extends hext)⟩
  · have hws : (ws : Multiset Value) ≤ c.owned := Multiset.coe_eq_coe.2 hperm ▸ hvs
    obtain ⟨hok, hheap, hsound⟩ := hs.giveUp hvs
    obtain ⟨hok', hheap', -⟩ := hs.giveUp hws
    rw [hheap, hheap']
    exact ⟨hok, hok', hsound.release_perm (hperm.filterMap Value.slot?)⟩

/-- A list and its copy share a text, which is emptied by whichever of the two is given up last. -/
theorem release_complete_and_ordered_shared :
    ∃ c : Custody, Reachable .untracked c ∧ c.owned = {.ref 1, .ref 2} ∧
      c.heap.find? 1 = some (.list [.ref 0]) ∧ c.heap.find? 2 = some (.list [.ref 0]) ∧
      c.heap.Acyclic ∧ (Action.giveUp [.ref 2, .ref 1] c.heap).heap.live = [] ∧
      ∀ s, (Action.giveUp [.ref 1, .ref 2] c.heap).heap.cell? s =
        (Action.giveUp [.ref 2, .ref 1] c.heap).heap.cell? s := by
  have hlist : Reachable .untracked _ :=
    .result [.ref 1] .start (Request.permitted_build (.list [.str "a"]) _) rfl
  let c : Custody := Custody.after ⟨Heap.empty .untracked, 0⟩ (.build (.list [.str "a"])) [.ref 1]
  have hpermitted : (Request.copy (.ref 1)).Permitted c :=
    hlist.permitted _ (by decide) (by decide) (fun _ hp => by cases hp) trivial
  have hcopy : Reachable .untracked (c.after (.copy (.ref 1)) [.ref 2]) :=
    hlist.result [.ref 2] hpermitted (by decide +kernel)
  have howned : (c.after (.copy (.ref 1)) [.ref 2]).owned = {.ref 1, .ref 2} := by decide +kernel
  have hcells : (c.after (.copy (.ref 1)) [.ref 2]).heap.cells =
      #[some ⟨2, .str "a"⟩, some ⟨1, .list [.ref 0]⟩, some ⟨1, .list [.ref 0]⟩] := by
    decide +kernel
  have hacyclic : (c.after (.copy (.ref 1)) [.ref 2]).heap.Acyclic := by
    refine .of_cells fun s d hd t ht => ?_
    rw [hcells] at hd
    match s with
    | 0 => cases hd; cases ht
    | 1 => cases hd; obtain rfl := List.mem_singleton.1 ht; decide
    | 2 => cases hd; obtain rfl := List.mem_singleton.1 ht; decide
    | s + 3 => cases hd
  have hmain := release_complete_and_ordered hcopy
  exact ⟨_, hcopy, howned, by decide +kernel, by decide +kernel, hacyclic,
    ((hmain.1 hacyclic).2 [.ref 2, .ref 1] (howned ▸ by decide)).2,
    (hmain.2 [.ref 1, .ref 2] [.ref 2, .ref 1] (by decide) (howned ▸ by decide)).2.2⟩

/-- Circles have to be excluded: a list that has been put into itself keeps its slot when its only
owner gives it up. -/
theorem circle_outlives_owner :
    ∃ c : Custody, Reachable .untracked c ∧ c.owned = {.ref 0} ∧
      (Action.giveUp [.ref 0] c.heap).result = .ok () ∧
      (Action.giveUp [.ref 0] c.heap).heap.live = [⟨1, .list [.ref 0]⟩] := by
  have hlist : Reachable .untracked _ :=
    .result [.ref 0] .start (Request.permitted_build (.list []) _) rfl
  have hclone := hlist.permitted (.clone (.ref 0)) (by decide) (by decide)
    (fun _ hp => by cases hp) trivial
  have htwo := hlist.result [.ref 0] hclone rfl
  have hpush := htwo.permitted (.push 0 (.ref 0)) (by decide) (by decide)
    (fun _ hp => by cases hp) ⟨[], rfl⟩
  exact ⟨_, htwo.result [] hpush rfl, by decide, by decide +kernel, by decide +kernel⟩

end ValueHeap
