import ValueHeap.Proofs.Compare.Stops
import ValueHeap.Proofs.Congruence

/-!
# Where faults strike

What only looks at a heap counts the levels that are left, and a fault tells how many of them were
left where it struck.  They are never more than at the start: comparing and fingerprinting go down,
and come up again before they go on.  Nothing else about the levels that were entered matters to
them, so a heap looks the same to both from any level.

## What is here

* `Halt.Within` — an error, or a fault with no more levels left than that.
* `Compare.within_stopsWithin` and `Fingerprint.within_stopsWithin` — where faults strike.
* `Compare.within_depth` and `Fingerprint.within_depth` — what the outcome does not depend on.
-/

set_option autoImplicit false

namespace ValueHeap

/-- An error, or a fault that struck with at most so many levels left. -/
def Halt.Within (levels : Nat) : Halt → Prop
  | .error _ => True
  | .fault _ left => left ≤ levels

theorem Halt.Within.mono {halt : Halt} {m n : Nat} (hmn : m ≤ n) (hw : halt.Within m) :
    halt.Within n := by
  cases halt with
  | error e => trivial
  | fault f levels => exact Nat.le_trans hw hmn

namespace Answer

variable {α : Type} {n : Nat}

/-- Whatever stops the answer, no more levels are left than that. -/
abbrev StopsWithin (levels : Nat) (x : Answer α) : Prop := x.Stops (Halt.Within levels)

theorem stopsWithin_look (u : Except Fault α) : (look n u).StopsWithin n :=
  .look (fun _ => Nat.le_refl n) u

theorem stopsWithin_raise (c : Cause) : (raise c : Answer α).StopsWithin n := by
  rintro _ ⟨⟩
  trivial

theorem stopsWithin_refuse (limit : Nat) (e : RunError) :
    (refuse limit e : Answer α).StopsWithin n := by
  rintro _ ⟨⟩
  trivial

theorem StopsWithin.mono {x : Answer α} {m : Nat} (hmn : m ≤ n) (hx : x.StopsWithin m) :
    x.StopsWithin n :=
  fun e he => (hx e he).mono hmn

/-- It is kept when answers are put together. -/
theorem congruence_stopsWithin (n : Nat) : Congruence n n fun _ x _ => x.StopsWithin n where
  pure _ := .pure _
  raise := stopsWithin_raise
  report _ := .report _
  look := stopsWithin_look
  bind hx hf := hx.bind fun a _ => hf a

end Answer

open Answer

/-! ## Comparisons -/

namespace Compare

variable {h k : Heap} {judge : Judge} {mode : Mode} {n : Nat} {a b : Value} {op : Operator}

theorem fallback_stopsWithin (h : Heap) (mode : Mode) (n : Nat) (a b : Value) (op : Operator) :
    (fallback h mode n a b op).StopsWithin n := by
  cases mode with
  | total => exact (stopsWithin_look _).bind fun _ _ => (Stops.report _).bind fun _ _ => .pure _
  | strict =>
    rw [fallback]
    split
    · exact (Stops.report _).bind fun _ _ => .pure _
    · exact (stopsWithin_look _).bind fun _ _ => (stopsWithin_look _).bind fun _ _ =>
        stopsWithin_raise _

/-- A fault on one level strikes there, or in the comparison of a part. -/
theorem dispatch_stopsWithin (hj : ∀ x y op', (judge x y op').StopsWithin n) :
    (dispatch h mode n judge a b op).StopsWithin n := by
  have hself (v : Value) :
      Counterpart (.only (Halt.Within n)) (fun x x' => x = x' ∧ True) h n h n v v :=
    .refl (fun _ => Nat.le_refl n) fun _ _ _ _ _ _ => ⟨rfl, trivial⟩
  exact dispatch_stops (hself a) (hself b) (fun _ _ _ _ => stopsWithin_look _)
    (fun _ _ _ _ _ _ => trivial) (fallback_stopsWithin h mode n a b op)
    fun x y op' _ _ _ => hj x y op'

/-- **Where a comparison meets a fault**, no more levels are left than at its start. -/
theorem within_stopsWithin (h : Heap) (mode : Mode) (n : Nat) (a b : Value) (op : Operator) :
    (within h mode n a b op).StopsWithin n := by
  induction n generalizing a b op with
  | zero => exact unlessInts_stops (stopsWithin_refuse _ _)
  | succ n ih => exact unlessInts_stops ((dispatch_stopsWithin ih).mono (Nat.le_succ n))

theorem position_stopsWithin (hj : ∀ x y op', (judge x y op').StopsWithin n)
    (wanted : HashedKey) (stored : List HashedKey) :
    (position judge wanted stored).StopsWithin n := by
  induction stored with
  | nil => exact .pure _
  | cons k rest ih =>
    have hnext (found : Bool) : (if found = true then pure (some 0)
        else do
          let place ← position judge wanted rest
          pure (place.map (· + 1)) : Answer (Option Nat)).StopsWithin n := by
      split
      · exact .pure _
      · exact ih.bind fun place _ => .pure _
    rw [position]
    split
    · refine Stops.bind ?_ fun found _ => hnext found
      rw [sameOrEqual]
      split
      · exact .pure _
      · exact hj _ _ _
    · exact hnext false

/-- How many levels were entered does not matter to a level itself. -/
theorem dispatch_depth (h : Heap) (depth : Nat) :
    dispatch { h with depth } mode n judge a b op = dispatch h mode n judge a b op := by
  have hsubtype (s t : TypeRef) : ({ h with depth } : Heap).isSubtype s t = h.isSubtype s t :=
    Heap.isSubtype_congr (h := h) (k := { h with depth }) rfl s t
  rw [dispatch, dispatch]
  simp only [hsubtype]
  rfl

/-- **A comparison only depends on how many levels are left**, not on how many were entered. -/
theorem within_depth (h : Heap) (depth : Nat) (mode : Mode) (n : Nat) :
    within { h with depth } mode n = within h mode n := by
  induction n with
  | zero => rfl
  | succ n ih =>
    funext a b op
    have hlevel (a b : Value) (op : Operator) :
        dispatch { h with depth } mode n (within { h with depth } mode n) a b op =
          dispatch h mode n (within h mode n) a b op := by
      rw [ih, dispatch_depth]
    simp only [within, unlessInts, hlevel]

end Compare

/-! ## Fingerprints -/

namespace Fingerprint

theorem Folds.stopsWithin {x : (Value → Answer Int64) → Answer Int64} (hx : Folds x) {n : Nat}
    {part : Value → Answer Int64} (hpart : ∀ v, (part v).StopsWithin n) :
    (x part).StopsWithin n :=
  @hx n n _ (congruence_stopsWithin n) part part hpart

/-- **Where a fingerprint meets a fault**, no more levels are left than at its start. -/
theorem within_stopsWithin (h : Heap) (n : Nat) (v : Value) : (within h n v).StopsWithin n := by
  induction n generalizing v with
  | zero =>
    let down := ofValue.contents h none
    exact (congruence_stopsWithin 0).ofValueWith (h := h) rfl rfl down down
      (fun _ _ => stopsWithin_refuse _ _) v
  | succ n ih =>
    let down := ofValue.contents h (some (within h n))
    exact (congruence_stopsWithin (n + 1)).ofValueWith (h := h) rfl rfl down down
      (fun x hx => (hx.stopsWithin ih).mono (Nat.le_succ n)) v

/-- **A fingerprint only depends on how many levels are left**, not on how many were entered. -/
theorem within_depth (h : Heap) (depth : Nat) (n : Nat) :
    within { h with depth } n = within h n := by
  induction n with
  | zero => rfl
  | succ n ih =>
    funext v
    rw [within, within, ih]
    rfl

end Fingerprint

end ValueHeap
