import ValueHeap.Engine
import ValueHeap.Proofs.Fingerprint.MoreLevels
import ValueHeap.Proofs.Persists

/-!
# The limit on nesting never changes an answer

Under a limit on nesting an operation is refused when it goes too deep, and this is all that the
limit does.  A refusal inside of a key that is looked for, of an element that is compared, of a part
that is copied or fingerprinted ends the whole operation; it is never taken for a key that is not
there, for parts that differ or for a part without a word of its own.  So what has come to another
end comes to the same one under every limit that is no lower.

## What is here

* `Copy.persists_within` — copying under a higher limit.
* `Object.persists_build` — building under a higher limit.
* `answers_independent_of_depthLimit` — the result, the heap and the events of all five operations.
-/

set_option autoImplicit false

namespace ValueHeap

open ValueHeap.Action

variable {limit : Option Nat}

/-- **A copy with more levels to go is the same**, under a limit that is no lower. -/
theorem Copy.persists_within {m n : Nat} (hmn : m ≤ n) (v : Value) :
    Persists limit (within m v) (within n v) := by
  have hcongruence : Congruence fun _ x y => Persists limit x y := persists_congruence
  induction m generalizing n v with
  | zero =>
    -- no level is left for the parts, so the first copy is refused where it would need one
    have hrefused (x : (Value → Action Value) → Action Value) (y : Action Value) :
        Persists limit (ofValue.contents none x) y :=
      persists_of_premature fun h hc => hc _ rfl rfl
    cases n <;> exact hcongruence.ofValueWith hcongruence _ _ (fun x _ => hrefused x _) v
  | succ m ih =>
    obtain ⟨n, rfl⟩ := Nat.exists_eq_add_of_le' (Nat.le_trans (Nat.le_add_left 1 m) hmn)
    exact hcongruence.ofValueWith hcongruence _ _
      (fun x hx => (hx _ _ (ih (Nat.le_of_succ_le_succ hmn))).oneLevelDown) v

theorem Build.persists_find (wanted : HashedKey) (stored : List HashedKey) :
    Persists limit (find wanted stored) (find wanted stored) := by
  refine (persists_consult fun h hh => ?_).silently
  exact Compare.position_deeper
    (Compare.within_deeper (h.cells_withDepthLimit limit) hh.levelsLeft_le) wanted stored

/-- **A value is built alike** under a limit that is no lower. -/
theorem Object.persists_build (o : Object) : Persists limit o.build o.build :=
  persists_congruence.build Build.persists_find o

/-! ## All operations -/

theorem persists_deepCopy (v : Value) : Persists limit (deepCopy v) (deepCopy v) :=
  fun h hh hc => Copy.persists_within hh.levelsLeft_le v h hh hc

theorem persists_deepHash (v : Value) : Persists limit (deepHash v) (deepHash v) :=
  persists_consult fun h hh => Fingerprint.within_deeper (h.cells_withDepthLimit limit)
    (h.budget.digitLimit_withDepthLimit limit) hh.levelsLeft_le v

theorem persists_richCompare (mode : Mode) (a b : Value) (op : Operator) :
    Persists limit (richCompare mode a b op) (richCompare mode a b op) :=
  persists_consult fun h hh =>
    Compare.within_deeper (h.cells_withDepthLimit limit) hh.levelsLeft_le a b op

theorem persists_richCompareHere (mode : Mode) (a b : Value) (op : Operator) :
    Persists limit (richCompareHere mode a b op) (richCompareHere mode a b op) :=
  persists_consult fun h hh => Compare.dispatch_deeper (h.cells_withDepthLimit limit)
    (Compare.within_deeper (h.cells_withDepthLimit limit) hh.levelsLeft_le)

/-- **The limit on nesting never changes an answer.**  What building a value, copying one,
fingerprinting one or comparing two comes to in any heap, with a result or with an error that is no
`RecursionError`, it comes to under every limit that is no lower: with the same result, the same
events, and the same heap but for the limit.  The levels that were entered before are the same. -/
theorem answers_independent_of_depthLimit (h : Heap) (limit : Option Nat)
    (hlimit : h.budget.depthLimit ≤ (h.withDepthLimit limit).budget.depthLimit) :
    (∀ o : Object, (o.build h).Conclusive →
        o.build (h.withDepthLimit limit) = (o.build h).withDepthLimit limit) ∧
      (∀ v, (deepCopy v h).Conclusive →
        deepCopy v (h.withDepthLimit limit) = (deepCopy v h).withDepthLimit limit) ∧
      (∀ v, (deepHash v h).Conclusive →
        deepHash v (h.withDepthLimit limit) = (deepHash v h).withDepthLimit limit) ∧
      (∀ mode a b op, (richCompare mode a b op h).Conclusive →
        richCompare mode a b op (h.withDepthLimit limit) =
          (richCompare mode a b op h).withDepthLimit limit) ∧
      ∀ mode a b op, (richCompareHere mode a b op h).Conclusive →
        richCompareHere mode a b op (h.withDepthLimit limit) =
          (richCompareHere mode a b op h).withDepthLimit limit :=
  ⟨fun o hc => (o.persists_build h hlimit hc).2, fun v hc => (persists_deepCopy v h hlimit hc).2,
    fun v hc => (persists_deepHash v h hlimit hc).2,
    fun mode a b op hc => (persists_richCompare mode a b op h hlimit hc).2,
    fun mode a b op hc => (persists_richCompareHere mode a b op h hlimit hc).2⟩

/-- A list in a list under two levels: it is copied, and its order with a number is an error, both
alike under five levels.  One level would not have been enough for the copy. -/
theorem answers_independent_of_depthLimit_nested :
    let h : Heap := ⟨#[some ⟨1, .list [.int 1]⟩, some ⟨1, .list [.ref 0]⟩], [],
      .under { depth := some 2 }, 0⟩
    h.budget.depthLimit ≤ (h.withDepthLimit (some 5)).budget.depthLimit ∧
      (deepCopy (.ref 1) h).result = .ok (.ref 3) ∧
      deepCopy (.ref 1) (h.withDepthLimit (some 5)) =
        (deepCopy (.ref 1) h).withDepthLimit (some 5) ∧
      (richCompare .strict (.ref 1) (.int 1) .lt h).result =
        .error (.error (.raised (.unordered .lt "list" "int"))) ∧
      richCompare .strict (.ref 1) (.int 1) .lt (h.withDepthLimit (some 5)) =
        (richCompare .strict (.ref 1) (.int 1) .lt h).withDepthLimit (some 5) ∧
      (deepCopy (.ref 1) (h.withDepthLimit (some 1))).result =
        .error (.error (.resource (.recursion 1 2))) := by
  intro h
  have hlimit : h.budget.depthLimit ≤ (h.withDepthLimit (some 5)).budget.depthLimit := by decide
  have hsame := answers_independent_of_depthLimit h (some 5) hlimit
  have hcopy : (deepCopy (.ref 1) h).result = .ok (.ref 3) := by decide +kernel
  have hcompare : (richCompare .strict (.ref 1) (.int 1) .lt h).result =
      .error (.error (.raised (.unordered .lt "list" "int"))) := by decide +kernel
  refine ⟨hlimit, hcopy, hsame.2.1 _ ?_, hcompare, hsame.2.2.2.1 _ _ _ _ ?_, by decide +kernel⟩
  · intro e he
    cases hcopy.symm.trans he
  · intro e he
    cases hcompare.symm.trans he
    exact nofun

end ValueHeap
