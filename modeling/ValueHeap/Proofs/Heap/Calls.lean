import ValueHeap.Proofs.Heap.Sound

/-!
# Calls

A heap serves a few calls: contents are placed, references are taken and given back, a list or any
other contents are changed in place, a level is entered or left.  Nobody makes sure that a caller
gives back what it has taken, and nothing else.  A call that is refused or that breaks off on a
fault leaves the heap as far as it came, and the next call finds it so.

Whatever the calls are, the slots that wait for use are the empty ones.

## What is here

* `Heap.Call`, `Heap.Call.perform` and `Heap.run` — calls, what one does to a heap, and what
  several do in order.
* `Heap.placed` and `Heap.overrun` — how many calls place contents, and how many are counted that
  place none.
* `Heap.Call.effect` — all that a call can do.
* `Heap.FreeExact.run` — the slots that wait for use, after any calls.
* `Heap.FreeExact.live_add_free` — every slot is in use or waits for use.
-/

set_option autoImplicit false

namespace ValueHeap

namespace Heap

/-- What a heap is called for. -/
inductive Call where
  /-- To place contents. -/
  | allocate (contents : Payload)
  /-- To take one more reference to a slot. -/
  | retain (s : Slot)
  /-- To give back a reference to a slot. -/
  | release (s : Slot)
  /-- To append an item to the list in a slot. -/
  | push (s : Slot) (item : Value)
  /-- To put an item in the place of another in the list in a slot. -/
  | replace (s : Slot) (index : Nat) (item : Value)
  /-- To put contents in the place of others, without a look at what either refers to. -/
  | overwrite (s : Slot) (contents : Payload)
  /-- To count so many levels as entered from now on. -/
  | setDepth (depth : Nat)

/-- What a call leaves of a heap, also where it fails. -/
def Call.perform (h : Heap) : Call → Heap
  | allocate contents => (h.allocate contents).2
  | retain s => (h.retain s).2
  | release s => (h.release [s]).2
  | push s item => (h.pushItem s item).2
  | replace s index item => (h.replaceItem s index item).2
  | overwrite s contents =>
    match h.access .edit s with
    | .ok c => h.put s { c with payload := contents }
    | .error _ => h
  | setDepth depth => { h with depth }

/-- Whether contents are placed. -/
def Call.places (h : Heap) : Call → Bool
  | allocate contents => (h.allocate contents).1.isOk
  | _ => false

/-- Whether contents are counted that are not placed.  This is so where the memory in use would no
longer fit a word and has no limit. -/
def Call.overruns (h : Heap) : Call → Bool
  | allocate contents =>
    match h.budget.charge contents.size with
    | .error (.fault _) => h.budget.limits.memory.isNone
    | _ => false
  | _ => false

/-- The bytes of the contents to be placed. -/
def Call.bytes : Call → Nat
  | allocate contents => contents.size
  | _ => 0

/-- Whether an item is appended. -/
def Call.isPush : Call → Bool
  | push .. => true
  | _ => false

/-- Whether contents are put in the place of others. -/
def Call.isOverwrite : Call → Bool
  | overwrite .. => true
  | _ => false

/-- What calls leave of a heap, made one after the other whatever became of those before. -/
def run (h : Heap) (calls : List Call) : Heap := calls.foldl Call.perform h

/-- Of how many calls something is true, made one after the other. -/
def tally (holds : Heap → Call → Bool) (h : Heap) : List Call → Nat
  | [] => 0
  | call :: rest => (holds h call).toNat + (call.perform h).tally holds rest

/-- How many calls place contents, made one after the other. -/
def placed (h : Heap) (calls : List Call) : Nat := h.tally Call.places calls

/-- How many calls are counted that place no contents. -/
def overrun (h : Heap) (calls : List Call) : Nat := h.tally Call.overruns calls

variable {h : Heap} {s : Slot} {p : Payload} {call : Call}

theorem run_append (h : Heap) (first rest : List Call) :
    h.run (first ++ rest) = (h.run first).run rest := List.foldl_append

/-- What is counted without being placed breaks off on the charge. -/
theorem Call.exists_fault_of_overruns (hover : call.overruns h = true) :
    ∃ p f, call = .allocate p ∧ h.budget.charge p.size = .error (.fault f) := by
  cases call with
  | allocate p =>
    rw [overruns] at hover
    cases hb : h.budget.charge p.size with
    | error e =>
      cases e with
      | fault f => exact ⟨p, f, rfl, hb⟩
      | error e => rw [hb] at hover; cases hover
    | ok b => rw [hb] at hover; cases hover
  | _ => cases hover

theorem tally_append (holds : Heap → Call → Bool) (h : Heap) (first rest : List Call) :
    h.tally holds (first ++ rest) = h.tally holds first + (h.run first).tally holds rest := by
  induction first generalizing h with
  | nil => exact (Nat.zero_add _).symm
  | cons call first ih => rw [List.cons_append, tally, ih, tally, Nat.add_assoc, run, run,
      List.foldl_cons]

/-! ## What a call can do -/

/-- What a call does to a heap: contents are placed, references are given back, a slot in use gets
something else, or nothing happens to the slots.  Contents in use only take up less room than before
when others are put in their place, and only take up more when an item is appended as well. -/
inductive Call.Effect (h : Heap) (call : Call) : Prop
  | allocate {p : Payload} (hcall : call = .allocate p)
  | release {s : Slot} (hcall : call = .release s)
  | put {s : Slot} {c d : Cell} (hplaces : call.places h = false)
      (hover : call.overruns h = false) (hc : h.cell? s = some c)
      (hheap : call.perform h = h.put s d)
      (hgrow : call.isOverwrite = false → c.payload.size ≤ d.payload.size)
      (hsame : call.isOverwrite = false → call.isPush = false → d.payload.size = c.payload.size)
  | beside (depth : Nat) (hplaces : call.places h = false) (hover : call.overruns h = false)
      (hheap : call.perform h = { h with depth })

theorem Call.effect (h : Heap) (call : Call) : call.Effect h := by
  cases call with
  | allocate p => exact .allocate rfl
  | release s => exact .release rfl
  | setDepth depth => exact .beside depth rfl rfl rfl
  | retain s =>
    cases hs : h.access .read s with
    | ok c =>
      have hheap : (Call.retain s).perform h = h.put s { c with refcount := c.refcount + 1 } := by
        rw [perform, Heap.retain, hs]
      exact .put rfl rfl (access_eq_ok_iff.1 hs) hheap (fun _ => Nat.le_refl _) fun _ _ => rfl
    | error f => exact .beside h.depth rfl rfl (by rw [perform, Heap.retain, hs])
  | overwrite s p =>
    cases hs : h.access .edit s with
    | ok c =>
      have hheap : (Call.overwrite s p).perform h = h.put s { c with payload := p } := by
        rw [perform, hs]
      exact .put rfl rfl (access_eq_ok_iff.1 hs) hheap (fun hno => absurd hno.symm Bool.false_ne_true)
        fun hno => absurd hno.symm Bool.false_ne_true
    | error f => exact .beside h.depth rfl rfl (by rw [perform, hs])
  | push s item =>
    cases hs : h.access .edit s with
    | error f => exact .beside h.depth rfl rfl (by rw [perform, pushItem, hs])
    | ok c =>
      obtain ⟨n, p⟩ := c
      cases p with
      | list items =>
        have hheap : (Call.push s item).perform h = h.put s ⟨n, .list (items ++ [item])⟩ := by
          rw [perform, pushItem, hs]
        refine .put rfl rfl (access_eq_ok_iff.1 hs) hheap (fun _ => ?_)
          fun _ hno => absurd hno.symm Bool.false_ne_true
        simp only [Payload.size, List.length_append]
        omega
      | _ => exact .beside h.depth rfl rfl (by rw [perform, pushItem, hs])
  | replace s index item =>
    cases hs : h.access .edit s with
    | error f => exact .beside h.depth rfl rfl (by rw [perform, replaceItem, hs])
    | ok c =>
      obtain ⟨n, p⟩ := c
      cases p with
      | list items =>
        cases hi : items[index]? with
        | some old =>
          have hheap : (Call.replace s index item).perform h =
              h.put s ⟨n, .list (items.set index item)⟩ := by
            simp only [perform, replaceItem, hs, hi]
          have hsize : (Payload.list (items.set index item)).size = (Payload.list items).size := by
            simp only [Payload.size, List.length_set]
          exact .put rfl rfl (access_eq_ok_iff.1 hs) hheap (fun _ => Nat.le_of_eq hsize.symm)
            fun _ _ => hsize
        | none =>
          exact .beside h.depth rfl rfl (by simp only [perform, replaceItem, hs, hi])
      | _ => exact .beside h.depth rfl rfl (by rw [perform, replaceItem, hs])

/-! ## Slots that wait for use -/

namespace FreeExact

/-- Nothing but the slots matters. -/
theorem beside (hf : h.FreeExact) (budget : Budget) (depth : Nat) :
    ({ h with budget, depth } : Heap).FreeExact := ⟨hf.nodup, hf.mem_iff⟩

theorem steady : Steady FreeExact where
  recount _ hc hk := hk.put hc
  vacate hc hk := hk.vacate hc

theorem allocate (hf : h.FreeExact) (p : Payload) : (h.allocate p).2.FreeExact :=
  steady.allocate hf (fun b _ => (hf.beside b h.depth).place p) (hf.beside _ h.depth)

/-- A call leaves the empty slots waiting for use. -/
theorem perform (hf : h.FreeExact) (call : Call) : (call.perform h).FreeExact := by
  cases call.effect h with
  | allocate hcall =>
    subst hcall
    exact hf.allocate _
  | release hcall =>
    subst hcall
    exact steady.release hf _
  | put _ _ hc hheap =>
    rw [hheap]
    exact hf.put hc
  | beside _ _ _ hheap =>
    rw [hheap]
    exact hf.beside h.budget _

theorem run (hf : h.FreeExact) (calls : List Call) : (h.run calls).FreeExact := by
  induction calls generalizing h with
  | nil => exact hf
  | cons call rest ih => exact ih (hf.perform call)

/-- Every slot is in use or waits for use. -/
theorem live_add_free (hf : h.FreeExact) : h.live.length + h.free.length = h.cells.size := by
  have hperm : h.free.Perm ((List.range h.cells.size).filter fun s => h.cell? s = none) := by
    refine (List.perm_ext_iff_of_nodup hf.nodup (List.nodup_range.filter _)).2 fun s => ?_
    rw [hf.mem_iff, List.mem_filter, List.mem_range, decide_eq_true_iff]
  have hcells : h.cells.toList = (List.range h.cells.size).map h.cell? := by
    refine List.ext_getElem (by simp) fun s hs _ => ?_
    have hlt : s < h.cells.size := hs
    rw [List.getElem_map, List.getElem_range, cell?, Array.getElem?_eq_getElem hlt]
    rfl
  have hlive : h.live.length = (List.range h.cells.size).countP fun s => (h.cell? s).isSome := by
    rw [live, hcells, List.filterMap_map, List.length_filterMap_eq_countP]
    rfl
  have hsplit := List.length_eq_countP_add_countP (fun s => (h.cell? s).isSome)
    (l := List.range h.cells.size)
  rw [hlive, hperm.length_eq, ← List.countP_eq_length_filter]
  simpa using hsplit.symm

end FreeExact

end Heap

end ValueHeap
