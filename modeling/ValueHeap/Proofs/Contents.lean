import ValueHeap.Proofs.Compare.Contents
import ValueHeap.Proofs.Counts

/-!
# Comparison reads contents

Slots are numbered as they were free when they were filled, and a value may be shared or written out
twice.  None of this can be told from what comparison says of plain data: two comparisons of values
of which the same is written out say the same, whatever heaps the values are in.

## What is here

* `richCompare_reads_contents` — comparison of plain data, in whatever can come about.
-/

set_option autoImplicit false

namespace ValueHeap

/-- **Comparison of plain data reads nothing but contents.**  In two heaps that can come about, let
values in which no complex number, no class and no instance occurs, and which do not contain
themselves, be such that the same is written out of the two left operands, and of the two right
operands.  Then both comparisons give the same result or the same type error, in either mode and
under every operator, unless one of them runs out of levels. -/
theorem richCompare_reads_contents {budget budget' : Budget} {c d : Custody}
    (hc : Reachable budget c) (hd : Reachable budget' d) {a a' b b' : Value}
    (ha : c.heap.PlainTree a) (ha' : d.heap.PlainTree a') (hb : c.heap.PlainTree b)
    (hb' : d.heap.PlainTree b') (hleft : c.heap.snapshot a = d.heap.snapshot a')
    (hright : c.heap.snapshot b = d.heap.snapshot b') (mode : Mode) (op : Operator)
    (hdeep : (richCompare mode a b op c.heap).result ≠ .error (.error (.raised .comparisonTooDeep)))
    (hdeep' :
      (richCompare mode a' b' op d.heap).result ≠ .error (.error (.raised .comparisonTooDeep))) :
    (richCompare mode a b op c.heap).result = (richCompare mode a' b' op d.heap).result := by
  have hcoherent := hc.sound.coherent
  have hcoherent' := hd.sound.coherent
  have htwins {v w : Value} (hv : c.heap.PlainTree v) (hw : d.heap.PlainTree w)
      (hsame : c.heap.snapshot v = d.heap.snapshot w) : c.heap.Twins d.heap v w := by
    obtain ⟨o, ho⟩ := Heap.exists_snapshot hcoherent hv.names
    exact ⟨o, ⟨hv, ho⟩, hw, hsame.symm.trans ho⟩
  have hmatches := Compare.within_twins mode c.heap.levelsLeft d.heap.levelsLeft op hcoherent
    hcoherent' (htwins ha ha' hleft) (htwins hb hb' hright)
  rw [richCompare, Action.result_consult] at hdeep hdeep'
  have hresults := hmatches.result_eq (fun e hx he => hdeep (by rw [hx, he]; rfl))
    (fun e hy he => hdeep' (by rw [hy, he]; rfl)) fun _ _ => id
  rw [richCompare, richCompare, Action.result_consult, Action.result_consult, hresults]

/-- A list that holds a list is at most itself, where both have the same item, and at most another
one that was built like it, where they do not. -/
theorem richCompare_reads_contents_shared :
    ∃ c d : Custody, Reachable .untracked c ∧ Reachable .untracked d ∧
      c.heap.find? 0 = some (.list [.int 1]) ∧ c.heap.find? 1 = some (.list [.ref 0]) ∧
      d.heap.find? 0 = some (.list [.int 1]) ∧ d.heap.find? 1 = some (.list [.ref 0]) ∧
      d.heap.find? 2 = some (.list [.int 1]) ∧ d.heap.find? 3 = some (.list [.ref 2]) ∧
      (richCompare .strict (.ref 1) (.ref 1) .le c.heap).result =
        (richCompare .strict (.ref 1) (.ref 3) .le d.heap).result := by
  let o : Object := .list [.list [.int 1]]
  let c : Custody := Custody.after ⟨Heap.empty .untracked, 0⟩ (.build o) [.ref 1]
  let d : Custody := Custody.after ⟨Heap.empty .untracked, 0⟩ (.build (.tuple [o, o])) [.ref 4]
  have hc : Reachable .untracked c :=
    .result [.ref 1] .start (Request.permitted_build o _) (by decide +kernel)
  have hd : Reachable .untracked d :=
    .result [.ref 4] .start (Request.permitted_build (.tuple [o, o]) _) (by decide +kernel)
  have hnested {h : Heap} {s t : Slot} (hs : h.find? s = some (.list [.int 1]))
      (ht : h.find? t = some (.list [.ref s])) :
      h.PlainTree (.ref t) ∧ h.snapshot (.ref t) = .ok o := by
    have hinner : h.PlainTree (.ref s) := by
      refine .contents hs rfl fun x hx => ?_
      obtain rfl := List.mem_singleton.1 hx
      exact .immediate rfl
    have houter : h.PlainTree (.ref t) := by
      refine .contents ht rfl fun x hx => ?_
      obtain rfl := List.mem_singleton.1 hx
      exact hinner
    have hone : h.snapshot (.int 1) = .ok (.int 1) := Heap.snapshot_immediate rfl
    refine ⟨houter, ?_⟩
    simp only [houter.snapshot_ref ht, hinner.snapshot_ref hs, Heap.objectOf, List.mapM_cons,
      List.mapM_nil, hone]
    rfl
  have hc₀ : c.heap.find? 0 = some (.list [.int 1]) := by decide +kernel
  have hc₁ : c.heap.find? 1 = some (.list [.ref 0]) := by decide +kernel
  have hd₀ : d.heap.find? 0 = some (.list [.int 1]) := by decide +kernel
  have hd₁ : d.heap.find? 1 = some (.list [.ref 0]) := by decide +kernel
  have hd₂ : d.heap.find? 2 = some (.list [.int 1]) := by decide +kernel
  have hd₃ : d.heap.find? 3 = some (.list [.ref 2]) := by decide +kernel
  obtain ⟨hplain, ho⟩ := hnested hc₀ hc₁
  obtain ⟨hplain₁, ho₁⟩ := hnested hd₀ hd₁
  obtain ⟨hplain₃, ho₃⟩ := hnested hd₂ hd₃
  exact ⟨c, d, hc, hd, hc₀, hc₁, hd₀, hd₁, hd₂, hd₃, richCompare_reads_contents hc hd hplain hplain₁
    hplain hplain₃ (ho.trans ho₁.symm) (ho.trans ho₃.symm) .strict .le (by decide +kernel)
    (by decide +kernel)⟩

end ValueHeap
