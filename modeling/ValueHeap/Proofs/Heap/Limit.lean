import ValueHeap.Proofs.Heap.Sound

/-!
# A heap under another limit on nesting

The limit on nesting is kept with the accounts of a heap, but nothing is ever charged to it.  So
what is done to slots and accounts is the same under any limit: references are taken and given back,
and contents are placed or refused, alike.

Accounts that count nothing have the default limits and no others.

## What is here

* `Heap.withDepthLimit` — a heap under another limit on nesting.
* `Heap.Raised` — a limit that is no lower than the one of the heap.
* `Heap.retain_withDepthLimit`, `Heap.release_withDepthLimit` and `Heap.allocate_withDepthLimit` —
  each does the same under another limit.
* `Heap.steady_raised` and `Heap.Raised.allocate` — none changes the limit.
* `Heap.OnLevel` — how many levels are entered, which is nothing that they change either.
-/

set_option autoImplicit false

namespace ValueHeap

/-! ## Accounts -/

namespace Budget

variable {b : Budget} {limit : Option Nat}

/-- The same accounts under another limit on nesting. -/
def withDepthLimit (b : Budget) (limit : Option Nat) : Budget :=
  match b with
  | untracked => untracked
  | tracked limits usage => tracked { limits with depth := limit } usage

/-- The limit is no lower than the one that the accounts have. -/
def Raised (b : Budget) (limit : Option Nat) : Prop :=
  b.depthLimit ≤ (b.withDepthLimit limit).depthLimit

@[simp] theorem digitLimit_withDepthLimit (b : Budget) (limit : Option Nat) :
    (b.withDepthLimit limit).digitLimit = b.digitLimit := by
  cases b <;> rfl

theorem refund_withDepthLimit (b : Budget) (limit : Option Nat) (size : Nat) :
    (b.withDepthLimit limit).refund size = (b.refund size).withDepthLimit limit := by
  cases b <;> rfl

/-- The same is granted and refused. -/
theorem charge_withDepthLimit (b : Budget) (limit : Option Nat) (size : Nat) :
    (b.withDepthLimit limit).charge size =
      (b.charge size).map fun c => c.withDepthLimit limit := by
  cases b with
  | untracked => rfl
  | tracked limits usage =>
    simp only [withDepthLimit, charge]
    repeat' split
    all_goals rfl

theorem overrun_withDepthLimit (b : Budget) (limit : Option Nat) :
    (b.withDepthLimit limit).overrun = b.overrun.withDepthLimit limit := by
  rcases b with _ | ⟨⟨_, _ | _, _, _⟩, usage⟩ <;> rfl

theorem Raised.overrun (hb : b.Raised limit) : b.overrun.Raised limit := by
  rcases b with _ | ⟨⟨_, _ | _, _, _⟩, usage⟩ <;> exact hb

theorem raised_refund (size : Nat) : (b.refund size).Raised limit ↔ b.Raised limit := by
  cases b <;> rfl

theorem Raised.charge {c : Budget} {size : Nat} (hb : b.Raised limit)
    (hc : b.charge size = .ok c) : c.Raised limit := by
  cases b with
  | untracked =>
    cases hc
    exact hb
  | tracked limits usage =>
    obtain ⟨rfl, -⟩ := eq_of_charge hc
    exact hb

end Budget

/-! ## Slots -/

namespace Heap

variable {h : Heap} {limit : Option Nat}

/-- The same heap under another limit on nesting. -/
def withDepthLimit (h : Heap) (limit : Option Nat) : Heap :=
  { h with budget := h.budget.withDepthLimit limit }

/-- The limit is no lower than the one that the heap has. -/
def Raised (h : Heap) (limit : Option Nat) : Prop := h.budget.Raised limit

@[simp] theorem cells_withDepthLimit (h : Heap) (limit : Option Nat) :
    (h.withDepthLimit limit).cells = h.cells := rfl

/-- As many levels are left under a limit that is no lower. -/
theorem Raised.levelsLeft_le (hh : h.Raised limit) :
    h.levelsLeft ≤ (h.withDepthLimit limit).levelsLeft :=
  Nat.sub_le_sub_right hh h.depth

theorem retain_withDepthLimit (h : Heap) (limit : Option Nat) (s : Slot) :
    (h.withDepthLimit limit).retain s =
      ((h.retain s).1, (h.retain s).2.withDepthLimit limit) := by
  have haccess : (h.withDepthLimit limit).access .read s = h.access .read s := rfl
  rw [retain, retain, haccess]
  cases h.access .read s <;> rfl

theorem steady_raised : Steady fun k => k.Raised limit where
  recount _ _ hk := hk
  vacate _ hk := (Budget.raised_refund _).2 hk

theorem vacate_withDepthLimit (h : Heap) (limit : Option Nat) (s : Slot) (c : Cell) :
    (h.withDepthLimit limit).vacate s c = (h.vacate s c).withDepthLimit limit := by
  simp only [vacate, withDepthLimit, Budget.refund_withDepthLimit]

theorem release_withDepthLimit (h : Heap) (limit : Option Nat) (pending : List Slot) :
    (h.withDepthLimit limit).release pending =
      ((h.release pending).1, (h.release pending).2.withDepthLimit limit) := by
  induction h, pending using Heap.release.induct with
  | case1 h => rw [release, release]
  | case2 h s rest f hf =>
    rw [release_fault hf, release_fault (h := h.withDepthLimit limit) hf]
  | case3 h s rest c hc hlt ih =>
    rw [access_eq_ok_iff] at hc
    rw [release_shared hc hlt, release_shared (h := h.withDepthLimit limit) hc hlt]
    exact ih
  | case4 h s rest c hc hle ih =>
    rw [access_eq_ok_iff] at hc
    rw [release_last hc hle, release_last (h := h.withDepthLimit limit) hc hle,
      vacate_withDepthLimit, ih]

theorem place_withDepthLimit (h : Heap) (limit : Option Nat) (p : Payload) :
    (h.withDepthLimit limit).place p = ((h.place p).1, (h.place p).2.withDepthLimit limit) := by
  rcases h with ⟨cells, _ | ⟨s, rest⟩, budget, depth⟩ <;> rfl

theorem Raised.place (hh : h.Raised limit) (p : Payload) : (h.place p).2.Raised limit := by
  rcases h with ⟨cells, _ | ⟨s, rest⟩, budget, depth⟩ <;> exact hh

theorem allocate_withDepthLimit (h : Heap) (limit : Option Nat) (p : Payload) :
    (h.withDepthLimit limit).allocate p =
      ((h.allocate p).1, (h.allocate p).2.withDepthLimit limit) := by
  have hcharge : (h.withDepthLimit limit).budget.charge p.size =
      (h.budget.charge p.size).map fun c => c.withDepthLimit limit :=
    h.budget.charge_withDepthLimit limit p.size
  rw [allocate, allocate, hcharge]
  rcases h.budget.charge p.size with (e | f) | budget
  · simp only [Except.map, release_withDepthLimit]
    rcases h.release p.children with ⟨_ | _, k⟩ <;> rfl
  · rw [withDepthLimit, Budget.overrun_withDepthLimit]
    rfl
  · have hplace := place_withDepthLimit { h with budget } limit p
    exact congrArg (fun placed : Slot × Heap => (Except.ok placed.1, placed.2)) hplace

theorem Raised.allocate (hh : h.Raised limit) (p : Payload) :
    (h.allocate p).2.Raised limit :=
  steady_raised.allocate hh
    (fun b hb => Raised.place (h := { h with budget := b }) (Budget.Raised.charge hh hb) p)
    (Budget.Raised.overrun hh)

/-! ## The levels that were entered -/

/-- So many levels are entered, of so many that may be. -/
def OnLevel (h : Heap) (depth limit : Nat) : Prop :=
  h.depth = depth ∧ h.budget.depthLimit = limit

namespace OnLevel

variable {depth limit : Nat}

theorem levelsLeft_eq (hh : h.OnLevel depth limit) : h.levelsLeft = limit - depth := by
  rw [levelsLeft, hh.1, hh.2]

theorem steady : Steady fun k => k.OnLevel depth limit where
  recount _ _ hk := hk
  vacate _ hk := by
    refine ⟨hk.1, ?_⟩
    rw [Heap.vacate, Budget.depthLimit, Budget.limits_refund]
    exact hk.2

theorem place (hh : h.OnLevel depth limit) (p : Payload) : (h.place p).2.OnLevel depth limit := by
  rcases h with ⟨cells, _ | ⟨s, rest⟩, budget, d⟩ <;> exact hh

theorem allocate (hh : h.OnLevel depth limit) (p : Payload) :
    (h.allocate p).2.OnLevel depth limit := by
  refine steady.allocate hh
    (fun b hb => place (h := { h with budget := b }) ⟨hh.1, ?_⟩ p) ⟨hh.1, ?_⟩
  · rw [← hh.2, Budget.depthLimit, Budget.depthLimit, Budget.limits_charge hb]
  · rw [← hh.2, Budget.depthLimit, Budget.depthLimit, Budget.limits_overrun]

end OnLevel

end Heap

end ValueHeap
