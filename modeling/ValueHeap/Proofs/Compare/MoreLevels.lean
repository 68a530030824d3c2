import ValueHeap.Proofs.Compare.Lockstep
import ValueHeap.Proofs.Heap.Cells

/-!
# More levels to go

A comparison that has come to an end with some number of levels comes to the same end with any more
of them, and reports the same on the way.  It takes the same way, and nowhere on the way does it ask
how many levels are left but to stop when there are none: a refusal is never taken for an answer.

The comparison with more levels may run on another heap, as long as that has the same slots, so that
the levels may also come from another limit on nesting.

## What is here

* `Failure.Premature` — the failures that leave a question open.
* `Leeway.deeper` — the first run may stop prematurely, and otherwise both are the same.
* `Compare.within_deeper` — a comparison with more levels.
* `Compare.position_deeper` — looking for a key with more levels.
* `Compare.within_mono` — more levels do not change a result.
-/

set_option autoImplicit false

namespace ValueHeap

/-- The failures that say nothing about what was asked: nesting went too deep, or a promise was
broken. -/
def Failure.Premature : Failure → Prop
  | error e => e.kind = .recursionError
  | fault _ => True

/-- The first run may stop prematurely, whatever the second one does then.  If it does not, both
end alike and report the same. -/
def Leeway.deeper : Leeway := ⟨fun e => e.failure.Premature, fun _ => False, Eq, True⟩

namespace Answer

variable {α : Type} {x y : Answer α}

theorem matches_deeper_iff :
    Matches .deeper Eq x y ↔ ((∀ e, x.result = .error e → ¬e.failure.Premature) → y = x) := by
  constructor
  · rcases x with ⟨es, r⟩
    rcases y with ⟨fs, r'⟩
    intro hxy hx
    cases hxy with
    | left hr he => exact absurd he (hx _ hr)
    | right _ he => exact he.elim
    | both hr hr' he hes =>
      cases hr
      cases hr'
      cases he
      cases hes trivial
      rfl
    | ok hr hr' hab hes =>
      cases hr
      cases hr'
      cases hab
      cases hes trivial
      rfl
  · intro h
    cases hr : x.result with
    | ok a =>
      have hyx := h fun e he => by rw [hr] at he; cases he
      exact .ok hr (hyx ▸ hr) rfl fun _ => hyx ▸ rfl
    | error e =>
      by_cases he : e.failure.Premature
      · exact .left hr he
      · have hyx := h fun e' he' => by rw [hr] at he'; cases he'; exact he
        exact .both hr (hyx ▸ hr) rfl fun _ => hyx ▸ rfl

theorem refl_deeper : Matches .deeper Eq x x := .refl fun _ _ => rfl

theorem look_deeper {m n : Nat} (u : Except Fault α) :
    Matches .deeper Eq (Answer.look m u) (Answer.look n u) := by
  cases u with
  | error f => exact .left rfl trivial
  | ok a => exact .pure rfl

end Answer

namespace Compare

open Answer

variable {h k : Heap} {mode : Mode} {m n : Nat} {a b : Value} {op : Operator}

section Judges

variable {judge judge' : Judge}
  (hj : ∀ x y op, Matches .deeper Eq (judge x y op) (judge' x y op))

include hj

theorem sameOrEqual_deeper {x x' y y' : Value} (hx : x = x') (hy : y = y') :
    Matches .deeper Eq (sameOrEqual judge x y) (sameOrEqual judge' x' y') := by
  subst hx hy
  exact sameOrEqual_matches Iff.rfl (hj x y .eq)

theorem valueOrder_deeper {x x' y y' : Value} (hx : x = x') (hy : y = y') :
    Matches .deeper Eq (valueOrder judge x y) (valueOrder judge' x' y') := by
  subst hx hy
  exact valueOrder_matches Iff.rfl (hj x y .lt) (hj x y .eq)

/-- A key is looked for in the same way. -/
theorem position_deeper (wanted : HashedKey) (stored : List HashedKey) :
    Matches .deeper Eq (position judge wanted stored) (position judge' wanted stored) :=
  position_matches (sameOrEqual_deeper hj) ⟨rfl, rfl⟩ (List.forall₂_same.2 fun _ _ => ⟨rfl, rfl⟩)

end Judges

/-! ## One level -/

section Cells

variable (hcells : k.cells = h.cells)

include hcells

theorem counterpart_deeper (v : Value) : Counterpart .deeper Eq h m k n v v := by
  cases v with
  | ref s =>
    refine .slot ?_
    rw [Heap.read_congr hcells]
    cases h.read s with
    | error f => exact .left rfl trivial
    | ok p => exact .pure ⟨.refl fun _ _ => rfl, fun _ => rfl⟩
  | _ => exact .immediate rfl

theorem fallbackOrder_congr (a b : Value) : fallbackOrder k a b = fallbackOrder h a b := by
  simp only [fallbackOrder, typeOrder, Heap.typeOf_congr hcells, Heap.nameOfType_congr hcells]

theorem fallback_deeper :
    Matches .deeper Eq (fallback h mode m a b op) (fallback k mode n a b op) := by
  cases mode with
  | total =>
    simp only [fallback, fallbackOrder_congr hcells]
    exact (look_deeper _).bind_eq fun _ _ _ => refl_deeper
  | strict =>
    refine .ite Iff.rfl (fun _ => refl_deeper) fun _ => ?_
    rw [Heap.typeName_congr hcells, Heap.typeName_congr hcells]
    exact (look_deeper _).bind_eq fun _ _ _ => (look_deeper _).bind_eq fun _ _ _ => refl_deeper

/-- One level comes to the same end if the comparisons of the parts do. -/
theorem dispatch_deeper {judge judge' : Judge}
    (hj : ∀ x y op, Matches .deeper Eq (judge x y op) (judge' x y op)) :
    Matches .deeper Eq (dispatch h mode m judge a b op) (dispatch k mode n judge' a b op) := by
  have hop (op : Operator) {x x' y y' : Value} (hx : x = x') (hy : y = y') :
      Matches .deeper Eq (judge x y op) (judge' x' y' op) := by
    subst hx hy
    exact hj x y op
  have hself (v : Value) : Counterpart .deeper Eq h m k n v v := counterpart_deeper hcells v
  have hrule (x y : Value) (op : Operator) :
      Matches .deeper Eq (typeRule h m judge x y op) (typeRule k n judge' x y op) :=
    typeRule_matches (sameOrEqual_deeper hj) (fun _ => hop op) (fun _ _ _ _ => refl_deeper)
      (hself x) (hself y)
  have hlast : Matches .deeper Eq (fallback h mode m a b op) (fallback k mode n a b op) :=
    fallback_deeper hcells
  refine dispatch_matches (hself a).typeOf_matches (hself b).typeOf_matches (fun s t _ _ => ?_)
    (hrule a b op) (hrule b a op.swapped) (fun _ _ _ _ _ => ?_) fun _ _ _ _ _ _ _ => hlast
  · rw [Heap.isSubtype_congr hcells]
    exact look_deeper _
  · exact (threeWayRule_matches (sameOrEqual_deeper hj) (hop .lt) (valueOrder_deeper hj) (hself a)
      (hself b)).decideOr fun _ _ => hlast

/-! ## All levels -/

/-- **More levels do not change how a comparison ends**, if it does not end for want of levels. -/
theorem within_deeper (hmn : m ≤ n) (a b : Value) (op : Operator) :
    Matches .deeper Eq (within h mode m a b op) (within k mode n a b op) := by
  have hself (v : Value) : Counterpart .deeper Eq h 0 k 0 v v := counterpart_deeper hcells v
  induction m generalizing n a b op with
  | zero =>
    -- no level is left for the first one, which stops unless it compares two machine integers
    cases n <;> exact unlessInts_matches (hself a) (hself b) (.left rfl rfl)
  | succ m ih =>
    obtain ⟨n, rfl⟩ := Nat.exists_eq_add_of_le' (Nat.le_trans (Nat.le_add_left 1 m) hmn)
    exact unlessInts_matches (hself a) (hself b)
      (dispatch_deeper hcells (ih (Nat.le_of_succ_le_succ hmn)))

end Cells

/-- **More levels do not change what a comparison says.** -/
theorem within_mono {r : Bool} (hmn : m ≤ n) (hr : (within h mode m a b op).result = .ok r) :
    (within h mode n a b op).result = .ok r :=
  (within_deeper rfl hmn a b op).result_eq_ok (fun _ => id) hr

end Compare

end ValueHeap
