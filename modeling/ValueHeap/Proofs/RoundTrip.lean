import ValueHeap.Proofs.Counts
import ValueHeap.Proofs.Object.Memory
import ValueHeap.Proofs.Object.Rebuilding

/-!
# From an object to a value and back

The two ways meet at the objects that values spell: what is built spells the normal form of its
object, and what spells an object is written out as it.  A second time round nothing changes any
more.  Keys that were kept have been told apart by the comparisons of the first time, and the same
comparisons tell them apart again.

## What is here

* `Budget.Fresh` — the accounts of a heap to start with, without limits on allocations and memory.
* `build_roundTrip` — the snapshot of what was built, and building it again from the snapshot.
-/

set_option autoImplicit false

namespace ValueHeap

/-- Nothing has been charged, allocations and memory are not limited, and so many levels of nesting
are. -/
structure Budget.Fresh (b : Budget) (depth : Nat) : Prop where
  unused : ∀ usage, b.usage? = some usage → usage = {}
  allocations : b.limits.allocations = none
  memory : b.limits.memory = none
  depth : b.depthLimit = depth

/-- Fresh accounts have room for whatever fits a word. -/
theorem Budget.Fresh.affords {b : Budget} {depth bytes : Nat} (hb : b.Fresh depth)
    (hroom : b.usage? = none ∨ bytes < wordBound) : b.Affords bytes := by
  cases b with
  | untracked => trivial
  | tracked limits usage =>
    obtain rfl := hb.unused usage rfl
    refine ⟨hb.allocations, hb.memory, ?_⟩
    rw [Nat.zero_add]
    exact hroom.resolve_left nofun

/-- The snapshot of a value that was built is the normal form of its object. -/
theorem snapshot_of_build {h : Heap} {held : Multiset Slot} (hs : h.Sound held) {o : Object}
    {v : Value} (hv : (o.build h).result = .ok v) :
    (o.build h).heap.snapshot v = .ok o.normal := by
  obtain ⟨slots, hspells, hnodup, -⟩ := (Object.spelt o h held hs v hv).spells
  exact hspells.snapshot hnodup

/-- **Building and writing out again gives the normal form.**  In whatever can come about, the
snapshot of a value that was built is the normal form of its object, bit for bit.  The normal form
can be built on every fresh heap with the same limit on nesting and none on allocations and memory,
and its snapshot there is the normal form once more.

Memory in use must fit a word wherever it is counted.  Where it was counted the first time this is
known; otherwise the fresh heap does not count it, or the footprint of the normal form must fit. -/
theorem build_roundTrip {budget : Budget} {c : Custody} (hc : Reachable budget c) {o : Object}
    {v : Value} (hv : (o.build c.heap).result = .ok v) :
    (o.build c.heap).heap.snapshot v = .ok o.normal ∧
      ∀ b : Budget, b.Fresh c.heap.budget.depthLimit →
        (c.heap.memory? = none → b.usage? = none ∨ o.normal.footprint < Budget.wordBound) →
        ∃ w, (o.normal.build (Heap.empty b)).result = .ok w ∧
          (o.normal.build (Heap.empty b)).heap.snapshot w = .ok o.normal := by
  refine ⟨snapshot_of_build hc.sound hv, fun b hb hroom => ?_⟩
  obtain ⟨slots, hspells, -, -⟩ := (Object.spelt o c.heap _ hc.sound v hv).spells
  have hrebuilds := hspells.rebuilds o.normal (List.mem_singleton_self _)
  have hempty := Heap.sound_empty b
  -- keys were told apart with the levels that were left, and an empty heap has all of them
  have hlevels : c.heap.levelsLeft ≤ (Heap.empty b).levelsLeft := by
    show c.heap.budget.depthLimit - c.heap.depth ≤ b.depthLimit - 0
    rw [hb.depth]
    exact Nat.sub_le_sub_left (Nat.zero_le _) _
  have hfits : b.usage? = none ∨ o.normal.footprint < Budget.wordBound := by
    cases hm : c.heap.memory? with
    | none => exact hroom hm
    | some m => exact Or.inr (Object.footprint_lt_of_build hc.sound hv (by rw [hm]; rfl))
  obtain ⟨w, hw, -⟩ := hrebuilds.ends (Heap.empty b) 0 0 hempty hlevels (hb.affords hfits)
  refine ⟨w, hw, ?_⟩
  rw [snapshot_of_build hempty hw, hrebuilds.normal]

/-- In a dict, `True` and 1.0 repeat the key 1, and a pair of 2.0 and a NaN repeats the pair of 2
and that NaN, while a pair with another NaN in it is a key of its own.  In a set, 0 and `False`
repeat the negative zero. -/
theorem build_roundTrip_repeated :
    ∃ (c : Custody) (o n : Object) (v : Value),
      Reachable (.under { memory := some 1000, depth := some 2 }) c ∧
      o = .dict [(.int 1, .str "a"), (.tuple [.bigInt 2, .float ⟨0x7ff8000000000001⟩], .none),
        (.bool true, .bytes [1]),
        (.tuple [.float ⟨0x4000000000000000⟩, .float ⟨0x7ff8000000000001⟩],
          .set [.float ⟨0x8000000000000000⟩, .int 0, .bool false]),
        (.tuple [.int 2, .float ⟨0x7ff8000000000002⟩], .bigInt 0x8000000000000000),
        (.float ⟨0x3ff0000000000000⟩, .str "b")] ∧
      n = .dict [(.int 1, .str "b"),
        (.tuple [.int 2, .float ⟨0x7ff8000000000001⟩], .set [.float ⟨0x8000000000000000⟩]),
        (.tuple [.int 2, .float ⟨0x7ff8000000000002⟩], .bigInt 0x8000000000000000)] ∧
      (o.build c.heap).result = .ok v ∧ (o.build c.heap).heap.snapshot v = .ok n ∧
      ∃ w, (n.build (Heap.empty (.under { depth := some 2 }))).result = .ok w ∧
        (n.build (Heap.empty (.under { depth := some 2 }))).heap.snapshot w = .ok n := by
  let o : Object := .dict [(.int 1, .str "a"),
    (.tuple [.bigInt 2, .float ⟨0x7ff8000000000001⟩], .none), (.bool true, .bytes [1]),
    (.tuple [.float ⟨0x4000000000000000⟩, .float ⟨0x7ff8000000000001⟩],
      .set [.float ⟨0x8000000000000000⟩, .int 0, .bool false]),
    (.tuple [.int 2, .float ⟨0x7ff8000000000002⟩], .bigInt 0x8000000000000000),
    (.float ⟨0x3ff0000000000000⟩, .str "b")]
  have hbuilt : (o.build (Heap.empty (.under { memory := some 1000, depth := some 2 }))).result =
      .ok (.ref 2) := by
    decide +kernel
  have hfresh : (Budget.under { depth := some 2 }).Fresh 2 :=
    ⟨fun _ husage => (Option.some.inj husage).symm, rfl, rfl, rfl⟩
  obtain ⟨hsnapshot, hagain⟩ := build_roundTrip .start hbuilt
  exact ⟨_, o, o.normal, _, .start, rfl, rfl, hbuilt, hsnapshot, hagain _ hfresh nofun⟩

end ValueHeap
