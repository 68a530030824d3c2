import ValueHeap.Proofs.Fingerprint.Within

/-!
# Fingerprints tell the structure

A fingerprint is taken to find out later whether a value is still made the way it was.  So it must
not depend on anything else: not on the slots that the value takes, nor on what is shared in it, nor
on the order in which the parts of a container stand.  In particular a copy has the fingerprint of
what was copied.

## What is here

* `deepHash_reads_structure` — values that are rearranged, and copies.
-/

set_option autoImplicit false

namespace ValueHeap

/-- The fingerprint with the levels that a heap has left, as far as there is one. -/
theorem toOption_deepHash (h : Heap) (v : Value) :
    (deepHash v h).result.toOption = (Fingerprint.within h h.levelsLeft v).value? := by
  rw [deepHash, Action.result_consult, Answer.value?]
  cases (Fingerprint.within h h.levelsLeft v).result <;> rfl

theorem Heap.Rearranged.deepHash_eq {h k : Heap} {v w : Value} (hvw : h.Rearranged k v w)
    (hdepth : h.depth = k.depth) (hlevels : h.budget.depthLimit = k.budget.depthLimit)
    (hdigits : h.budget.digitLimit = k.budget.digitLimit) :
    (deepHash v h).result.toOption = (deepHash w k).result.toOption := by
  have hleft : h.levelsLeft = k.levelsLeft := by rw [levelsLeft, levelsLeft, hdepth, hlevels]
  rw [toOption_deepHash, toOption_deepHash, hleft]
  exact Fingerprint.within_eq_of_rearranged hdigits (hvw k.levelsLeft)

/-- **A fingerprint depends on structure alone.**  Let two values, in heaps with the same limits and
as many levels entered, unfold to the same but for the order of the items of lists, tuples and sets
and of the entries of dicts, at any depth.  Then both have a fingerprint or neither has, and it is
the same.  So it is for a copy and what was copied, in the heap before and in the heap after. -/
theorem deepHash_reads_structure :
    (∀ {h k : Heap} {v w : Value}, h.depth = k.depth →
      h.budget.depthLimit = k.budget.depthLimit → h.budget.digitLimit = k.budget.digitLimit →
      h.Rearranged k v w →
      (deepHash v h).result.toOption = (deepHash w k).result.toOption) ∧
    ∀ {budget : Budget} {c : Custody} {v w : Value}, Reachable budget c → c.heap.Names v →
      (deepCopy v c.heap).result = .ok w →
      (deepHash v c.heap).result.toOption =
          (deepHash w (deepCopy v c.heap).heap).result.toOption ∧
        (deepHash v (deepCopy v c.heap).heap).result.toOption =
          (deepHash w (deepCopy v c.heap).heap).result.toOption := by
  refine ⟨fun hdepth hlevels hdigits hvw => hvw.deepHash_eq hdepth hlevels hdigits,
    fun {_ c v w} hc hv hw => ?_⟩
  obtain ⟨fresh, shared, hext, -, hcopied⟩ := copies_deepCopy hc.sound.closed hc.sound.free hv hw
  have hremovable := ((lands_deepCopy hc.sound hv).of_ok hw).removable
  have hsame {x : Value} (hx : c.heap.Rearranged (deepCopy v c.heap).heap v x) :
      (deepHash v c.heap).result.toOption =
        (deepHash x (deepCopy v c.heap).heap).result.toOption :=
    hx.deepHash_eq hremovable.depth.symm
      (by rw [Budget.depthLimit, Budget.depthLimit, hremovable.limits])
      (by rw [Budget.digitLimit, Budget.digitLimit, hremovable.limits])
  have hcopy := hsame (List.forall₂_cons.1 (hcopied.rearranged hc.sound.closed hext)).1
  exact ⟨hcopy, (hsame (.of_extends hc.sound.closed hext hv)).symm.trans hcopy⟩

/-- A dict that holds a list, and another one further up in its heap with the entries and the items
of the list the other way round.  The first one is copied as well. -/
theorem deepHash_reads_structure_reversed :
    ∃ (c d : Custody) (w : Value), Reachable .untracked c ∧ Reachable .untracked d ∧
      c.heap.find? 0 = some (.list [.int 1, .int 2]) ∧
      c.heap.find? 1 = some (.dict [⟨⟨.int 1, 1⟩, .ref 0⟩, ⟨⟨.int 2, 2⟩, .none⟩]) ∧
      d.heap.find? 1 = some (.list [.int 2, .int 1]) ∧
      d.heap.find? 2 = some (.dict [⟨⟨.int 2, 2⟩, .none⟩, ⟨⟨.int 1, 1⟩, .ref 1⟩]) ∧
      (deepHash (.ref 1) c.heap).result.toOption = (deepHash (.ref 2) d.heap).result.toOption ∧
      (deepCopy (.ref 1) c.heap).result = .ok w ∧
      (deepHash (.ref 1) c.heap).result.toOption =
          (deepHash w (deepCopy (.ref 1) c.heap).heap).result.toOption ∧
        (deepHash (.ref 1) (deepCopy (.ref 1) c.heap).heap).result.toOption =
          (deepHash w (deepCopy (.ref 1) c.heap).heap).result.toOption := by
  let o : Object := .dict [(.int 1, .list [.int 1, .int 2]), (.int 2, .none)]
  let o' : Object := .tuple [.str "a", .dict [(.int 2, .none), (.int 1, .list [.int 2, .int 1])]]
  let c : Custody := Custody.after ⟨Heap.empty .untracked, 0⟩ (.build o) [.ref 1]
  let d : Custody := Custody.after ⟨Heap.empty .untracked, 0⟩ (.build o') [.ref 3]
  have hc : Reachable .untracked c :=
    .result [.ref 1] .start (Request.permitted_build o _) (by decide +kernel)
  have hd : Reachable .untracked d :=
    .result [.ref 3] .start (Request.permitted_build o' _) (by decide +kernel)
  have hc₀ : c.heap.find? 0 = some (.list [.int 1, .int 2]) := by decide +kernel
  have hc₁ : c.heap.find? 1 = some (.dict [⟨⟨.int 1, 1⟩, .ref 0⟩, ⟨⟨.int 2, 2⟩, .none⟩]) := by
    decide +kernel
  have hd₁ : d.heap.find? 1 = some (.list [.int 2, .int 1]) := by decide +kernel
  have hd₂ : d.heap.find? 2 = some (.dict [⟨⟨.int 2, 2⟩, .none⟩, ⟨⟨.int 1, 1⟩, .ref 1⟩]) := by
    decide +kernel
  have hint (n : Int64) : c.heap.Rearranged d.heap (.int n) (.int n) := .immediate rfl
  have hlists : c.heap.Rearranged d.heap (.ref 0) (.ref 1) :=
    .contents hc₀ hd₁ (.list _ _) (.swap _ _ _)
      (.cons (.cons (hint 2) .nil) (.cons (.cons (hint 1) .nil) .nil))
  have hdicts : c.heap.Rearranged d.heap (.ref 1) (.ref 2) :=
    .contents hc₁ hd₂ (.dict _ _) (.swap _ _ _)
      (.cons (.cons (hint 2) (.cons (.immediate rfl) .nil))
        (.cons (.cons (hint 1) (.cons hlists .nil)) .nil))
  have hw : (deepCopy (.ref 1) c.heap).result = .ok (.ref 3) := by decide +kernel
  exact ⟨c, d, .ref 3, hc, hd, hc₀, hc₁, hd₁, hd₂,
    deepHash_reads_structure.1 (by decide +kernel) (by decide +kernel) (by decide +kernel) hdicts,
    hw, deepHash_reads_structure.2 hc (hc.names (by decide)) hw⟩

end ValueHeap
