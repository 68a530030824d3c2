import Mathlib.Data.ENat.Lattice
import Mathlib.Order.CompletePartialOrder
import ValueHeap.Proofs.Compare.TotalOrder

/-!
# How deeply a value is nested

Lists, tuples, dicts, sets and slices are containers, and each of them is one level deeper than the
deepest of its parts; the keys of a dict are parts like the values under them.  A list may contain
itself, and then there is no end to its levels.

## What is here

* `Heap.nestingWithin` — the levels of a value, as far as a bound lets one look.
* `Heap.nesting` — all its levels, which may be infinitely many.
* `Heap.nesting_part` and `Heap.nesting_le` — a container has one level more than the deepest of
  its parts.
* `Heap.nesting_eq_top` — a container that occurs in one of its parts has no last level.
-/

set_option autoImplicit false

namespace ValueHeap

/-- Whether the contents are a level of their own. -/
def Payload.isContainer : Payload → Bool
  | list _ | tuple _ | dict _ | set _ | slice .. => true
  | _ => false

theorem Payload.isContainer_of_part {p : Payload} {v : Value} (hv : v ∈ p.parts) :
    p.isContainer = true := by
  cases p <;> first | rfl | exact absurd hv List.not_mem_nil

namespace Heap

/-- The levels of a value, as far as so many references down. -/
def nestingWithin (h : Heap) : Nat → Value → Nat
  | 0, _ => 0
  | n + 1, v =>
    match v.slot?.bind h.find? with
    | some p =>
      if p.isContainer then (p.parts.map (h.nestingWithin n)).foldr max 0 + 1 else 0
    | none => 0

/-- The levels of a value. -/
noncomputable def nesting (h : Heap) (v : Value) : ℕ∞ := ⨆ n, (h.nestingWithin n v : ℕ∞)

variable {h : Heap} {s : Slot} {p : Payload} {v w x : Value} {b : ℕ∞}

theorem nestingWithin_ref (hp : h.find? s = some p) (hc : p.isContainer = true) (n : Nat) :
    h.nestingWithin (n + 1) (.ref s) = (p.parts.map (h.nestingWithin n)).foldr max 0 + 1 := by
  simp [nestingWithin, Value.slot?, hp, hc]

theorem le_foldr_max {α : Type} {f : α → Nat} {xs : List α} {a : α} (ha : a ∈ xs) :
    f a ≤ (xs.map f).foldr max 0 := by
  induction xs with
  | nil => cases ha
  | cons y ys ih =>
    rw [List.map_cons, List.foldr_cons]
    rcases List.mem_cons.1 ha with rfl | ha
    · exact Nat.le_max_left _ _
    · exact Nat.le_trans (ih ha) (Nat.le_max_right _ _)

theorem foldr_max_le {α : Type} {f : α → Nat} {xs : List α} (hxs : ∀ a ∈ xs, (f a : ℕ∞) ≤ b) :
    (((xs.map f).foldr max 0 : ℕ) : ℕ∞) ≤ b := by
  induction xs with
  | nil => exact bot_le
  | cons y ys ih =>
    have hcast : Monotone (Nat.cast : ℕ → ℕ∞) := Nat.mono_cast
    rw [List.map_cons, List.foldr_cons, hcast.map_max]
    exact max_le (hxs y List.mem_cons_self) (ih fun a ha => hxs a (List.mem_cons_of_mem y ha))

/-- **A container is deeper than each of its parts**, by a level. -/
theorem nesting_part (hp : h.find? s = some p) (hx : x ∈ p.parts) :
    h.nesting x + 1 ≤ h.nesting (.ref s) := by
  rw [nesting, ENat.iSup_add]
  refine iSup_le fun n => le_trans ?_ (le_iSup (fun n => (h.nestingWithin n (.ref s) : ℕ∞)) (n + 1))
  rw [nestingWithin_ref hp (Payload.isContainer_of_part hx)]
  exact_mod_cast Nat.succ_le_succ (le_foldr_max hx)

/-- **A container is at most one level deeper than the deepest of its parts.** -/
theorem nesting_le (hp : h.find? s = some p) (hb : ∀ x ∈ p.parts, h.nesting x ≤ b) :
    h.nesting (.ref s) ≤ b + 1 := by
  refine iSup_le fun n => ?_
  cases n with
  | zero => exact bot_le
  | succ n =>
    cases hc : p.isContainer with
    | false => simp [nestingWithin, Value.slot?, hp, hc]
    | true =>
      rw [nestingWithin_ref hp hc, Nat.cast_add, Nat.cast_one]
      refine add_le_add_left (foldr_max_le fun x hx => ?_) 1
      exact le_trans (le_iSup (fun n => (h.nestingWithin n x : ℕ∞)) n) (hb x hx)

/-- A container has a level even if it is empty. -/
theorem one_le_nesting (hp : h.find? s = some p) (hc : p.isContainer = true) :
    1 ≤ h.nesting (.ref s) := by
  refine le_trans ?_ (le_iSup (fun n => (h.nestingWithin n (.ref s) : ℕ∞)) 1)
  rw [nestingWithin_ref hp hc]
  exact_mod_cast Nat.succ_le_succ (Nat.zero_le _)

/-- What is no container has no levels. -/
theorem nesting_eq_zero (hv : ∀ s p, v = .ref s → h.find? s = some p → p.isContainer = false) :
    h.nesting v = 0 := by
  refine le_antisymm (iSup_le fun n => ?_) bot_le
  cases n with
  | zero => exact bot_le
  | succ n =>
    cases v with
    | ref s =>
      cases hp : h.find? s with
      | none => simp [nestingWithin, Value.slot?, hp]
      | some p => simp [nestingWithin, Value.slot?, hp, hv s p rfl hp]
    | _ => exact bot_le

theorem nesting_le_of_occurs (hw : h.Occurs w v) : h.nesting w ≤ h.nesting v := by
  induction hw with
  | self => exact le_rfl
  | part hp hx _ ih => exact (ih.trans le_self_add).trans (nesting_part hp hx)

/-- **A container that occurs in one of its own parts has no last level.** -/
theorem nesting_eq_top (hp : h.find? s = some p) (hx : x ∈ p.parts) (hs : h.Occurs (.ref s) x) :
    h.nesting (.ref s) = ⊤ := by
  have hstep : h.nesting (.ref s) + 1 ≤ h.nesting (.ref s) :=
    (add_le_add_left (nesting_le_of_occurs hs) 1).trans (nesting_part hp hx)
  by_contra hne
  exact absurd hstep (not_le.2 (ENat.lt_add_one_iff hne |>.2 le_rfl))

end Heap

end ValueHeap
