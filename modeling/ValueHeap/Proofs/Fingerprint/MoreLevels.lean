import ValueHeap.Proofs.Compare.MoreLevels
import ValueHeap.Proofs.Congruence

/-!
# Fingerprints with more levels to go

A fingerprint is missing where levels are, and the refusal is passed on from wherever it came: no
part of a container takes it for a word of its own.  So a fingerprint that does not end for want of
levels is the same with more of them, and so are the errors that were ignored on the way.

## What is here

* `Fingerprint.congruence_deeper` — what is put together from answers like this is like it.
* `Fingerprint.within_deeper` — all levels.
-/

set_option autoImplicit false

namespace ValueHeap.Fingerprint

open Answer

theorem congruence_deeper (m n : Nat) : Congruence m n fun _ x y => Matches .deeper Eq x y where
  pure _ := refl_deeper
  raise _ := refl_deeper
  report _ := refl_deeper
  look := look_deeper
  bind hxy hfg := hxy.bind_eq fun a _ _ => hfg a

variable {h k : Heap} {m n : Nat}

/-- **More levels do not change how a fingerprint ends**, if it does not end for want of levels. -/
theorem within_deeper (hcells : k.cells = h.cells)
    (hdigits : k.budget.digitLimit = h.budget.digitLimit) (hmn : m ≤ n) (v : Value) :
    Matches .deeper Eq (within h m v) (within k n v) := by
  induction m generalizing n v with
  | zero =>
    -- no level is left for the parts, so the first one is refused where it would need one
    have hrefused (x : (Value → Answer Int64) → Answer Int64) (y : Answer Int64) :
        Matches .deeper Eq (ofValue.contents h none x) y := .left rfl rfl
    cases n <;> exact (congruence_deeper _ _).ofValueWith hcells hdigits _ _
      (fun x _ => hrefused x _) v
  | succ m ih =>
    obtain ⟨n, rfl⟩ := Nat.exists_eq_add_of_le' (Nat.le_trans (Nat.le_add_left 1 m) hmn)
    exact (congruence_deeper _ _).ofValueWith hcells hdigits _ _
      (fun x hx => hx (congruence_deeper m n) (ih (Nat.le_of_succ_le_succ hmn))) v

end ValueHeap.Fingerprint
