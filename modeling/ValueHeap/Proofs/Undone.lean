import ValueHeap.Proofs.Counts

/-!
# What a failed operation leaves

An operation that fails gives back everything that it took and made, wherever in its walk the error
strikes.  What is left is the heap that it started on: not only as many references as before, but
the same contents with the same count in every slot, and nothing else in use.

Two things are not undone.  A slot that was filled on the way and emptied again waits for use in
another place of the line, and an allocation that was made stays counted as one.

## What is here

* `deepCopy_error_restores` — a copy that cannot be made.
* `build_error_restores` — a value that cannot be built.
-/

set_option autoImplicit false

namespace ValueHeap

/-- **A deep copy that fails leaves no trace.**  Whatever the error, every slot holds what it held
with as many references, as many levels are entered, and as much memory is in use. -/
theorem deepCopy_error_restores {budget : Budget} {c : Custody} (hc : Reachable budget c)
    {v : Value} (hv : c.heap.Names v) {e : RunError}
    (he : (deepCopy v c.heap).result = .error (.error e)) :
    (∀ s, (deepCopy v c.heap).heap.cell? s = c.heap.cell? s) ∧
      (deepCopy v c.heap).heap.depth = c.heap.depth ∧
      (deepCopy v c.heap).heap.memory? = c.heap.memory? :=
  ((lands_deepCopy hc.sound hv).of_error he).restored hc.sound

/-- Three lists have been allocated and one more is allowed, so the copy of a list of two lists ends
with one of the two copied and nothing left of it. -/
theorem deepCopy_error_restores_halfway :
    ∃ c : Custody, Reachable (.under { allocations := some 4 }) c ∧
      c.heap.find? 2 = some (.list [.ref 0, .ref 1]) ∧
      (deepCopy (.ref 2) c.heap).result = .error (.error (.resource (.allocation 4 5))) ∧
      (∀ s, (deepCopy (.ref 2) c.heap).heap.cell? s = c.heap.cell? s) ∧
      (deepCopy (.ref 2) c.heap).heap.depth = c.heap.depth ∧
      (deepCopy (.ref 2) c.heap).heap.memory? = c.heap.memory? := by
  have hlists : Reachable (.under { allocations := some 4 }) _ :=
    .result [.ref 2] .start (Request.permitted_build (.list [.list [], .list []]) _) rfl
  have hrefused : (deepCopy (.ref 2)
      (Custody.after ⟨Heap.empty (.under { allocations := some 4 }), 0⟩
        (.build (.list [.list [], .list []])) [.ref 2]).heap).result =
      .error (.error (.resource (.allocation 4 5))) := by
    decide +kernel
  have hnames := hlists.names (v := .ref 2) (by decide)
  exact ⟨_, hlists, rfl, hrefused, deepCopy_error_restores hlists hnames hrefused⟩

/-- **A conversion that fails leaves no trace.**  Whatever the error, and however deep in the object
it strikes, every slot holds what it held with as many references, as many levels are entered, and
as much memory is in use. -/
theorem build_error_restores {budget : Budget} {c : Custody} (hc : Reachable budget c)
    {o : Object} {e : RunError} (he : (o.build c.heap).result = .error (.error e)) :
    (∀ s, (o.build c.heap).heap.cell? s = c.heap.cell? s) ∧
      (o.build c.heap).heap.depth = c.heap.depth ∧
      (o.build c.heap).heap.memory? = c.heap.memory? :=
  ((Object.lands_build o c.heap _ hc.sound).of_error he).restored hc.sound

/-- A text is in use.  The second list of a list is a dict in which the key 1 has been given a value
for the second time and the text `"b"` a list, when a list turns up as a key. -/
theorem build_error_restores_unhashable :
    ∃ (c : Custody) (o : Object), Reachable (.under { memory := some 1000 }) c ∧
      c.heap.find? 0 = some (.str "a") ∧
      o = .list [.list [.str "a"], .dict [(.int 1, .str "c"), (.float ⟨0x3ff0000000000000⟩, .none),
        (.str "b", .list [.str "a"]), (.list [.str "d"], .none)]] ∧
      (o.build c.heap).result = .error (.error (.raised (.unhashable "list"))) ∧
      (∀ s, (o.build c.heap).heap.cell? s = c.heap.cell? s) ∧
      (o.build c.heap).heap.depth = c.heap.depth ∧
      (o.build c.heap).heap.memory? = c.heap.memory? := by
  have htext : Reachable (.under { memory := some 1000 }) _ :=
    .result [.ref 0] .start (Request.permitted_build (.str "a") _) rfl
  have hrefused : ((Object.list [.list [.str "a"], .dict [(.int 1, .str "c"),
        (.float ⟨0x3ff0000000000000⟩, .none), (.str "b", .list [.str "a"]),
        (.list [.str "d"], .none)]]).build
      (Custody.after ⟨Heap.empty (.under { memory := some 1000 }), 0⟩
        (.build (.str "a")) [.ref 0]).heap).result =
      .error (.error (.raised (.unhashable "list"))) := by
    decide +kernel
  exact ⟨_, _, htext, rfl, rfl, hrefused, build_error_restores htext hrefused⟩

end ValueHeap
