import Mathlib.Data.Multiset.AddSub
import ValueHeap.Proofs.Heap.Coherent

/-!
# Sound heaps

A heap is sound for the references that are held from outside when every count is exact: a slot has
as many references as the contents in use make to it and are held from outside.  Together with the
coherence of the contents this is kept by everything that a heap does to a slot.

## What is here

* `Heap.Sound` — the invariant, and `Heap.Sound.coherent`.
* `Heap.Sound.retain`, `Heap.Sound.release`, `Heap.Sound.allocate` and `Heap.Sound.putList` — it
  is kept, and what becomes of the references that are held.
* `Heap.Steady` — what is kept when references are counted anew and when a slot is emptied, and so
  when they are taken and given back, in whatever heap.
* `Heap.Sound.release_keeps` and `Heap.Extends.release` — releasing references of one's own leaves
  alone what was there before.
-/

set_option autoImplicit false

namespace ValueHeap

namespace Heap

/-- Every count is exact, with these references held from outside, and the contents are coherent. -/
structure Sound (h : Heap) (held : Multiset Slot) : Prop where
  /-- A slot has the references from contents and those from outside. -/
  counts : ∀ s, h.refcount s = h.references s + held.count s
  /-- A slot in use has a reference. -/
  used : ∀ s c, h.cell? s = some c → 0 < c.refcount
  free : h.FreeExact
  fits : ∀ s p, h.find? s = some p → h.Fits p
  layered : h.Layered

variable {h k : Heap} {held held' : Multiset Slot} {s t : Slot} {c : Cell}

theorem find?_isSome_of_refcount_pos (hs : 0 < h.refcount s) : (h.find? s).isSome := by
  rw [refcount] at hs
  rw [find?, Option.isSome_map]
  cases hc : h.cell? s with
  | none => simp [hc] at hs
  | some c => rfl

theorem closed_of_counts (hcounts : ∀ s, h.refcount s = h.references s + held.count s) :
    h.Closed := by
  intro s p hp t ht
  have hpos := references_pos hp ht
  exact find?_isSome_of_refcount_pos (by rw [hcounts]; omega)

theorem Sound.closed (hs : h.Sound held) : h.Closed := closed_of_counts hs.counts

theorem Sound.coherent (hs : h.Sound held) : h.Coherent := ⟨hs.closed, hs.fits, hs.layered⟩

/-- A slot that is held is in use. -/
theorem Sound.find?_of_held (hs : h.Sound held) (hmem : s ∈ held) : (h.find? s).isSome := by
  have hpos := Multiset.count_pos.2 hmem
  exact find?_isSome_of_refcount_pos (by rw [hs.counts]; omega)

theorem Sound.cell?_of_held (hs : h.Sound held) (hmem : s ∈ held) :
    ∃ c, h.cell? s = some c := by
  obtain ⟨p, hp⟩ := Option.isSome_iff_exists.1 (hs.find?_of_held hmem)
  obtain ⟨c, hc, -⟩ := exists_cell?_of_find? hp
  exact ⟨c, hc⟩

/-- A heap without slots is sound. -/
theorem sound_empty (budget : Budget) : (empty budget).Sound 0 where
  counts _ := rfl
  used _ _ hc := by cases hc
  free := ⟨List.nodup_nil, fun s => by simp [empty]⟩
  fits _ _ hp := by cases hp
  layered := ⟨fun _ => 0, fun _ _ hp => by cases hp⟩

/-- Soundness after a change that keeps the counts, if whatever is in use afterwards fitted
before. -/
theorem Sound.change (hs : h.Sound held)
    (hcounts : ∀ s, k.refcount s = k.references s + held'.count s)
    (hused : ∀ s c, k.cell? s = some c → 0 < c.refcount) (hfree : k.FreeExact) (hag : h.Agree k)
    (hfits : ∀ t q, k.find? t = some q → h.Fits q) (hlayered : k.Layered) : k.Sound held' where
  counts := hcounts
  used := hused
  free := hfree
  fits t q hq :=
    (hfits t q hq).of_agree hag hs.closed (closed_of_counts hcounts)
      (closed_of_counts hcounts t q hq)
  layered := hlayered

/-- A heap that holds less is layered too. -/
theorem Extends.layered (hkh : k.Extends h) (hl : h.Layered) : k.Layered := by
  obtain ⟨rank, hrank⟩ := hl
  exact ⟨rank, fun s p hp => hrank s p (hkh s p hp)⟩

/-! ## One reference more or less -/

/-- Another number of references to one slot. -/
theorem Sound.recount (hs : h.Sound held) {n : Nat} (hc : h.cell? s = some c) (hn : 0 < n)
    (hcount : n + held.count s = c.refcount + held'.count s)
    (hother : ∀ t, t ≠ s → held'.count t = held.count t) :
    (h.put s { c with refcount := n }).Sound held' := by
  have hext := extends_put (d := { c with refcount := n }) hc rfl
  have hrefs (t : Slot) : (h.put s { c with refcount := n }).references t = h.references t := by
    have := references_put (d := { c with refcount := n }) t hc
    exact Nat.add_right_cancel this
  refine hs.change (fun t => ?_) (fun t d hd => ?_) (hs.free.put hc) hext.1.agree
    (fun t q hq => hs.fits t q (hext.2 t q hq)) (hext.2.layered hs.layered)
  · have hct := hs.counts t
    rw [hrefs]
    by_cases hst : t = s
    · subst hst
      rw [refcount_of_cell? hc] at hct
      rw [refcount_of_cell? (cell?_put_self hc)]
      show n = _
      omega
    · rw [hother t hst, ← hct, refcount, refcount, cell?_put_of_ne (Ne.symm hst)]
  · by_cases hst : t = s
    · subst hst
      rw [cell?_put_self hc] at hd
      cases hd
      exact hn
    · rw [cell?_put_of_ne (Ne.symm hst)] at hd
      exact hs.used t d hd

/-- One more reference can be held to a slot in use. -/
theorem Sound.retain (hs : h.Sound held) (hc : h.cell? s = some c) :
    (h.retain s).1 = .ok () ∧ (h.retain s).2.Sound (s ::ₘ held) ∧ h.Extends (h.retain s).2 := by
  have hretain : h.retain s = (.ok (), h.put s { c with refcount := c.refcount + 1 }) := by
    rw [Heap.retain, access_eq_ok_iff.2 hc]
  rw [hretain]
  refine ⟨rfl, hs.recount hc (Nat.succ_pos _) ?_ fun t ht => ?_, (extends_put hc (by rfl)).1⟩
  · rw [Multiset.count_cons_self]
    omega
  · exact Multiset.count_cons_of_ne ht held

/-- A held reference to a slot with more than one can be given up. -/
theorem Sound.forget (hs : h.Sound (s ::ₘ held)) (hc : h.cell? s = some c)
    (hlt : 1 < c.refcount) : (h.put s { c with refcount := c.refcount - 1 }).Sound held := by
  refine hs.recount hc (by omega) ?_ fun t ht => ?_
  · rw [Multiset.count_cons_self]
    omega
  · exact (Multiset.count_cons_of_ne ht held).symm

/-- Giving up the only reference to a slot hands over the references of its contents. -/
theorem Sound.vacate (hs : h.Sound (s ::ₘ held)) (hc : h.cell? s = some c)
    (hle : ¬1 < c.refcount) : (h.vacate s c).Sound (c.payload.children + held) := by
  have hself := hs.counts s
  rw [refcount_of_cell? hc, Multiset.count_cons_self] at hself
  refine hs.change (fun t => ?_) (fun t d hd => ?_) (hs.free.vacate hc)
    extends_vacate.agree_symm (fun t q hq => hs.fits t q (extends_vacate t q hq))
    (extends_vacate.layered hs.layered)
  · have hrefs := references_vacate t hc
    have hct := hs.counts t
    rw [Multiset.count_add, Multiset.coe_count]
    by_cases hst : t = s
    · subst hst
      rw [refcount_of_cell?_none cell?_vacate_self]
      omega
    · rw [Multiset.count_cons_of_ne hst] at hct
      rw [refcount, cell?_vacate_of_ne (Ne.symm hst)]
      rw [refcount] at hct
      omega
  · by_cases hst : t = s
    · subst hst
      rw [cell?_vacate_self] at hd
      cases hd
    · rw [cell?_vacate_of_ne (Ne.symm hst)] at hd
      exact hs.used t d hd

/-! ## Releasing -/

theorem release_fault {f : Fault} (hf : h.access .release s = .error f) (rest : List Slot) :
    h.release (s :: rest) = (.error f, h) := by
  rw [Heap.release]
  split
  · next g hg => rw [Except.error.inj (hg.symm.trans hf)]
  · next c hc =>
    rw [hf] at hc
    cases hc

theorem release_shared (hc : h.cell? s = some c) (hlt : 1 < c.refcount) (rest : List Slot) :
    h.release (s :: rest) = (h.put s { c with refcount := c.refcount - 1 }).release rest := by
  rw [Heap.release]
  split
  · next f hf =>
    rw [access_eq_ok_iff.2 hc] at hf
    cases hf
  · next d hd =>
    rw [access_eq_ok_iff.2 hc] at hd
    cases hd
    rw [if_pos hlt]

theorem release_last (hc : h.cell? s = some c) (hle : ¬1 < c.refcount) (rest : List Slot) :
    h.release (s :: rest) = (h.vacate s c).release (c.payload.children ++ rest) := by
  rw [Heap.release]
  split
  · next f hf =>
    rw [access_eq_ok_iff.2 hc] at hf
    cases hf
  · next d hd =>
    rw [access_eq_ok_iff.2 hc] at hd
    cases hd
    rw [if_neg hle]

theorem allocate_of_ok {p : Payload} {b : Budget} (hb : h.budget.charge p.size = .ok b) :
    h.allocate p = (.ok (({ h with budget := b } : Heap).place p).1,
      (({ h with budget := b } : Heap).place p).2) := by
  rw [Heap.allocate, hb]

theorem allocate_of_fault {p : Payload} {f : Fault}
    (hf : h.budget.charge p.size = .error (.fault f)) :
    h.allocate p = (.error (.fault f), { h with budget := h.budget.overrun }) := by
  rw [Heap.allocate, hf]

/-- A property of heaps that is kept when the references to a slot are counted anew, and when a
slot is emptied. -/
structure Steady (P : Heap → Prop) : Prop where
  recount : ∀ {k : Heap} {s : Slot} {c : Cell} (n : Nat), k.cell? s = some c → P k →
    P (k.put s { c with refcount := n })
  vacate : ∀ {k : Heap} {s : Slot} {c : Cell}, k.cell? s = some c → P k → P (k.vacate s c)

namespace Steady

variable {P : Heap → Prop} (hP : Steady P)

include hP

theorem retain (hh : P h) (s : Slot) : P (h.retain s).2 := by
  rw [Heap.retain]
  cases hs : h.access .read s with
  | ok c => exact hP.recount _ (access_eq_ok_iff.1 hs) hh
  | error f => exact hh

/-- Giving back references counts down and empties slots that are in use, and does nothing else,
also where it breaks off. -/
theorem release (hh : P h) (pending : List Slot) : P (h.release pending).2 := by
  induction h, pending using Heap.release.induct with
  | case1 h =>
    rw [Heap.release]
    exact hh
  | case2 h s rest f hf =>
    rw [release_fault hf]
    exact hh
  | case3 h s rest c hc hlt ih =>
    rw [access_eq_ok_iff] at hc
    rw [release_shared hc hlt]
    exact ih (hP.recount _ hc hh)
  | case4 h s rest c hc hle ih =>
    rw [access_eq_ok_iff] at hc
    rw [release_last hc hle]
    exact ih (hP.vacate hc hh)

/-- Contents that are not charged for are not placed. -/
theorem refused (hh : P h) {p : Payload} {e : Failure} (hb : h.budget.charge p.size = .error e)
    (hover : ∀ f, e = .fault f → P { h with budget := h.budget.overrun }) :
    (∃ e, (h.allocate p).1 = .error e) ∧ P (h.allocate p).2 := by
  cases e with
  | fault f =>
    rw [allocate_of_fault hb]
    exact ⟨⟨_, rfl⟩, hover f rfl⟩
  | error e =>
    have hk := hP.release hh p.children
    rw [Heap.allocate, hb]
    rcases hr : h.release p.children with ⟨_ | _, k⟩ <;> rw [hr] at hk <;> exact ⟨⟨_, rfl⟩, hk⟩

theorem allocate (hh : P h) {p : Payload}
    (hplace : ∀ b, h.budget.charge p.size = .ok b →
      P (({ h with budget := b } : Heap).place p).2)
    (hover : P { h with budget := h.budget.overrun }) : P (h.allocate p).2 := by
  cases hb : h.budget.charge p.size with
  | ok b =>
    rw [allocate_of_ok hb]
    exact hplace b hb
  | error e => exact (hP.refused hh hb fun _ _ => hover).2

end Steady

theorem steady_extends (h : Heap) : Steady fun k => k.Extends h where
  recount _ hc hk := (extends_put hc (by rfl)).2.trans hk
  vacate _ hk := extends_vacate.trans hk

/-- **References that are held can be released**, which empties slots and changes none. -/
theorem Sound.release {pending : List Slot} (hs : h.Sound (pending + held)) :
    (h.release pending).1 = .ok () ∧ (h.release pending).2.Sound held ∧
      (h.release pending).2.Extends h := by
  induction h, pending using Heap.release.induct with
  | case1 h =>
    rw [Heap.release]
    refine ⟨rfl, ?_, Extends.refl h⟩
    simpa using hs
  | case2 h s rest f hf =>
    obtain ⟨c, hc⟩ := hs.cell?_of_held (s := s) (by simp)
    rw [access_eq_ok_iff.2 hc] at hf
    cases hf
  | case3 h s rest c hc hlt ih =>
    rw [access_eq_ok_iff] at hc
    rw [← Multiset.cons_coe, Multiset.cons_add] at hs
    obtain ⟨hok, hsound, hext⟩ := ih (hs.forget hc hlt)
    rw [release_shared hc hlt]
    exact ⟨hok, hsound, hext.trans (extends_put hc (by rfl)).2⟩
  | case4 h s rest c hc hle ih =>
    rw [access_eq_ok_iff] at hc
    rw [← Multiset.cons_coe, Multiset.cons_add] at hs
    have hvacate := hs.vacate hc hle
    rw [← add_assoc, Multiset.coe_add] at hvacate
    obtain ⟨hok, hsound, hext⟩ := ih hvacate
    rw [release_last hc hle]
    exact ⟨hok, hsound, hext.trans extends_vacate⟩

/-- Emptying a slot that a heap does not have in use leaves alone what it holds. -/
theorem Extends.vacate {start : Heap} (hext : start.Extends h) (hs : start.find? s = none) :
    start.Extends (h.vacate s c) := by
  intro t p hp
  have hne : s ≠ t := by
    rintro rfl
    rw [hs] at hp
    cases hp
  have hfind := hext t p hp
  rwa [find?, cell?_vacate_of_ne hne]

/-- Releasing references that came on top of those that a start heap was sound for counts down
references and empties slots that the start heap does not have in use.  What is kept by either is
kept. -/
theorem Sound.release_keeps {pending : List Slot} {start : Heap} {P : Heap → Prop}
    (hstart : start.Sound held) (hsub : held ≤ held') (hs : h.Sound (pending + held'))
    (hext : ∀ k, P k → start.Extends k)
    (hput : ∀ k s c n, k.cell? s = some c → P k → P (k.put s { c with refcount := n }))
    (hvacate : ∀ k s c, k.cell? s = some c → start.find? s = none → P k → P (k.vacate s c))
    (hP : P h) : P (h.release pending).2 := by
  induction h, pending using Heap.release.induct with
  | case1 h =>
    rw [Heap.release]
    exact hP
  | case2 h s rest f hf =>
    obtain ⟨c, hc⟩ := hs.cell?_of_held (s := s) (by simp)
    rw [access_eq_ok_iff.2 hc] at hf
    cases hf
  | case3 h s rest c hc hlt ih =>
    rw [access_eq_ok_iff] at hc
    rw [← Multiset.cons_coe, Multiset.cons_add] at hs
    rw [release_shared hc hlt]
    exact ih (hs.forget hc hlt) (hput h s c _ hc hP)
  | case4 h s rest c hc hle ih =>
    rw [access_eq_ok_iff] at hc
    rw [← Multiset.cons_coe, Multiset.cons_add] at hs
    have hnext := hs.vacate hc hle
    rw [← add_assoc, Multiset.coe_add] at hnext
    rw [release_last hc hle]
    refine ih hnext (hvacate h s c hc (Option.eq_none_iff_forall_ne_some.2 fun p hp => ?_) hP)
    -- what the start heap has in this slot has a reference there, and the pending one on top
    obtain ⟨d, hd, rfl⟩ := exists_cell?_of_find? hp
    have hpos := hstart.used s d hd
    have hcount := hstart.counts s
    have hcount' := hs.counts s
    have hheld := Multiset.count_le_of_le s hsub
    have hrefs := (hext h hP).references_le s
    rw [refcount_of_cell? hd] at hcount
    rw [refcount_of_cell? hc, Multiset.count_cons_self, Multiset.count_add] at hcount'
    omega

/-- Releasing references that came on top of those that a heap was sound for leaves alone what that
heap held: its own references are enough to keep it. -/
theorem Extends.release {pending : List Slot} {start : Heap} (hstart : start.Sound held)
    (hsub : held ≤ held') (hs : h.Sound (pending + held')) (hext : start.Extends h) :
    start.Extends (h.release pending).2 :=
  Sound.release_keeps hstart hsub hs (fun _ hk => hk)
    (fun _ _ _ _ hc hk => hk.trans (extends_put hc (by rfl)).1)
    (fun _ _ _ _ hs hk => hk.vacate hs) hext

/-! ## Allocating -/

theorem find?_of_place {p q : Payload} {t : Slot} (hne : (h.place p).1 ≠ t)
    (hq : (h.place p).2.find? t = some q) : h.find? t = some q := by
  rwa [find?, cell?_place_of_ne p hne] at hq

/-- Contents that are placed in a slot to which nothing refers leave the heap layered. -/
theorem Layered.place {p : Payload} (hl : h.Layered) (hfree : h.FreeExact)
    (hzero : h.references (h.place p).1 = 0) (hself : (h.place p).1 ∉ p.children) :
    (h.place p).2.Layered := by
  obtain ⟨rank, hrank⟩ := hl
  -- the new slot goes above whatever its contents refer to
  refine ⟨fun t => if t = (h.place p).1 then 1 + (p.children.map rank).sum else rank t,
    fun t q hq hlist u hu => ?_⟩
  by_cases hst : (h.place p).1 = t
  · subst hst
    rw [find?_of_cell? (cell?_place_self hfree p)] at hq
    obtain rfl : p = q := Option.some.inj hq
    have hne : u ≠ (h.place p).1 := fun heq => hself (heq ▸ hu)
    have hle := List.le_sum_of_mem (List.mem_map_of_mem (f := rank) hu)
    simp only [if_neg hne, if_pos]
    omega
  · have hold := find?_of_place hst hq
    have hne : u ≠ (h.place p).1 := by
      rintro rfl
      have := references_pos hold hu
      omega
    simp only [if_neg hne, if_neg (Ne.symm hst)]
    exact hrank t q hold hlist u hu

/-- Contents that fit can be placed, with the references that they hold. -/
theorem Sound.place {p : Payload} (hs : h.Sound (p.children + held)) (hfit : h.Fits p) :
    (h.place p).2.Sound ((h.place p).1 ::ₘ held) := by
  have hempty := cell?_place_fst hs.free p
  have hself := cell?_place_self hs.free p
  have hext := extends_place hs.free p
  -- nothing refers to the slot before
  have hzero := hs.counts (h.place p).1
  rw [refcount_of_cell?_none hempty, Multiset.count_add, Multiset.coe_count] at hzero
  refine hs.change (fun t => ?_) (fun t d hd => ?_) (hs.free.place p) hext.agree
    (fun t q hq => ?_) ?_
  · rw [references_place hs.free]
    by_cases hst : (h.place p).1 = t
    · subst hst
      rw [refcount_of_cell? hself, Multiset.count_cons_self]
      show 1 = _
      omega
    · have hct := hs.counts t
      rw [Multiset.count_add, Multiset.coe_count] at hct
      rw [Multiset.count_cons_of_ne (Ne.symm hst), refcount, cell?_place_of_ne p hst]
      rw [refcount] at hct
      omega
  · by_cases hst : (h.place p).1 = t
    · subst hst
      rw [hself] at hd
      cases hd
      exact Nat.one_pos
    · rw [cell?_place_of_ne p hst] at hd
      exact hs.used t d hd
  · by_cases hst : (h.place p).1 = t
    · subst hst
      rw [find?_of_cell? hself] at hq
      cases hq
      exact hfit
    · exact hs.fits t q (find?_of_place hst hq)
  · refine hs.layered.place hs.free (by omega) fun hmem => ?_
    have := List.count_pos_iff.2 hmem
    omega

/-- Nothing depends on the accounts and on the levels entered. -/
theorem Sound.beside (hs : h.Sound held) (budget : Budget) (depth : Nat) :
    ({ h with budget, depth } : Heap).Sound held :=
  hs.change hs.counts hs.used ⟨hs.free.nodup, hs.free.mem_iff⟩
    (Extends.agree fun _ _ => id) hs.fits hs.layered

theorem charge_fault {b : Budget} {size : Nat} {f : Fault}
    (hf : b.charge size = .error (.fault f)) : f = .overflow := by
  cases b with
  | untracked => cases hf
  | tracked limits usage => exact (Budget.of_charge_fault hf).1

/-- **Contents that fit are placed or refused.**  When they are refused, the references that they
hold are given up. -/
theorem Sound.allocate {p : Payload} {start : Heap} (hstart : start.Sound held)
    (hsub : held ≤ held') (hs : h.Sound (p.children + held')) (hext : start.Extends h)
    (hfit : h.Fits p) :
    match h.allocate p with
    | (.ok s, k) => k.Sound (s ::ₘ held') ∧ h.Extends k ∧ k.find? s = some p
    | (.error (.error _), k) => k.Sound held' ∧ start.Extends k
    | (.error (.fault f), _) => f = .overflow := by
  rw [Heap.allocate]
  cases hb : h.budget.charge p.size with
  | ok budget =>
    have hs' := hs.beside budget h.depth
    have hfit' : ({ h with budget } : Heap).Fits p :=
      Fits.of_agree (h := h) (Extends.agree fun _ _ => id) hs.closed hs'.closed hfit fun t ht =>
        hs'.find?_of_held (Multiset.mem_add.2 (Or.inl ht))
    exact ⟨hs'.place hfit', extends_place hs'.free p, find?_of_cell? (cell?_place_self hs'.free p)⟩
  | error e =>
    cases e with
    | fault f => exact charge_fault hb
    | error e =>
      obtain ⟨hok, hsound, -⟩ := hs.release
      have hkeep := Extends.release hstart hsub hs hext
      rcases hrelease : h.release p.children with ⟨r, k⟩
      rw [hrelease] at hok hsound hkeep
      cases hok
      exact ⟨hsound, hkeep⟩

/-! ## Lists -/

theorem agree_put_list {n : Nat} {items items' : List Value}
    (hc : h.cell? s = some ⟨n, .list items⟩) : h.Agree (h.put s ⟨n, .list items'⟩) := by
  intro t p q hp hq
  by_cases hst : s = t
  · subst hst
    rw [find?_of_cell? hc] at hp
    rw [find?_of_cell? (cell?_put_self hc)] at hq
    cases hp
    cases hq
    exact Or.inr ⟨rfl, rfl⟩
  · rw [find?, cell?_put_of_ne hst] at hq
    exact Or.inl (Option.some.inj (hp.symm.trans hq))

/-- Other items in a list, with an exchange of the references that they hold. -/
theorem Sound.putList (hs : h.Sound held) {n : Nat} {items items' : List Value}
    (hc : h.cell? s = some ⟨n, .list items⟩)
    (hslots : (items'.filterMap Value.slot? : Multiset Slot) + held' =
      (items.filterMap Value.slot? : List Slot) + held) :
    (h.put s ⟨n, .list items'⟩).Sound held' := by
  have hold {t : Slot} (hne : s ≠ t) : (h.put s ⟨n, .list items'⟩).cell? t = h.cell? t :=
    cell?_put_of_ne hne
  have hself := cell?_put_self (c := ⟨n, .list items'⟩) hc
  refine hs.change (fun t => ?_) (fun t d hd => ?_) (hs.free.put hc) (agree_put_list hc)
    (fun t q hq => ?_) ?_
  · have hrefs := references_put (d := ⟨n, .list items'⟩) t hc
    have hct := hs.counts t
    have hitems := congrArg (Multiset.count t) hslots
    rw [Multiset.count_add, Multiset.count_add, Multiset.coe_count, Multiset.coe_count] at hitems
    have hrefcount : (h.put s ⟨n, .list items'⟩).refcount t = h.refcount t := by
      by_cases hst : s = t
      · subst hst
        rw [refcount_of_cell? hself, refcount_of_cell? hc]
      · rw [refcount, refcount, hold hst]
    rw [hrefcount]
    change _ + (items.filterMap Value.slot?).count t =
      _ + (items'.filterMap Value.slot?).count t at hrefs
    omega
  · by_cases hst : s = t
    · subst hst
      rw [hself] at hd
      obtain rfl := Option.some.inj hd
      exact hs.used s ⟨n, .list items⟩ hc
    · exact hs.used t d (hold hst ▸ hd)
  · by_cases hst : s = t
    · subst hst
      rw [find?_of_cell? hself] at hq
      cases hq
      exact .plain rfl rfl
    · rw [find?, hold hst] at hq
      exact hs.fits t q hq
  · obtain ⟨rank, hrank⟩ := hs.layered
    refine ⟨rank, fun t q hq hlist => ?_⟩
    by_cases hst : s = t
    · subst hst
      rw [find?_of_cell? hself] at hq
      cases hq
      cases hlist
    · rw [find?, hold hst] at hq
      exact hrank t q hq hlist

end Heap

end ValueHeap
