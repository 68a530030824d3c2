import ValueHeap.Proofs.Served

/-!
# The slots that wait for use

Giving back one reference can set off a cascade: a slot is emptied, its contents give back their
references, and this empties further slots.  With wrong counts a cascade can come back to a slot
that it has emptied itself, and breaks off there.  It comes to an end in either case, and not
because references go down somewhere, since they may lead in a circle.  A slot that is emptied takes
its references with it, so no more of them can be given back than there were in the beginning.

Wherever it breaks off, each slot that was emptied waits for use, and no other one does.

## What is here

* `Heap.Cascade` — giving back references one after the other, each with all that follows from it
  before the next one, with the number of references that were gone about.
* `Heap.exists_cascade` — it comes to an end, and to the one that `Heap.release` comes to.
* `free_slots_exact` — the slots that wait for use, in whatever calls or requests bring about.
-/

set_option autoImplicit false

namespace ValueHeap

namespace Heap

variable {h k : Heap} {s : Slot} {c : Cell} {p : Payload}

/-! ## Cascades -/

/-- References are given back one after the other.  The last one to a slot empties it, and the
references in its contents are given back before the next one.  A fault is met at a slot that is
empty already, and nothing more is done then. -/
inductive Cascade : Heap → List Slot → Nat → Except Fault Unit → Heap → Prop
  | done {h : Heap} : Cascade h [] 0 (.ok ()) h
  | fault {h : Heap} {s : Slot} {rest : List Slot} {f : Fault}
      (hf : h.access .release s = .error f) : Cascade h (s :: rest) 1 (.error f) h
  | shared {h k : Heap} {s : Slot} {c : Cell} {rest : List Slot} {n : Nat} {r : Except Fault Unit}
      (hc : h.cell? s = some c) (hlt : 1 < c.refcount)
      (hrest : Cascade (h.put s { c with refcount := c.refcount - 1 }) rest n r k) :
      Cascade h (s :: rest) (n + 1) r k
  | last {h k l : Heap} {s : Slot} {c : Cell} {rest : List Slot} {m n : Nat}
      {r : Except Fault Unit} (hc : h.cell? s = some c) (hle : ¬1 < c.refcount)
      (hparts : Cascade (h.vacate s c) c.payload.children m (.ok ()) k)
      (hrest : Cascade k rest n r l) : Cascade h (s :: rest) (m + n + 1) r l
  | broken {h k : Heap} {s : Slot} {c : Cell} {rest : List Slot} {n : Nat} {f : Fault}
      (hc : h.cell? s = some c) (hle : ¬1 < c.refcount)
      (hparts : Cascade (h.vacate s c) c.payload.children n (.error f) k) :
      Cascade h (s :: rest) (n + 1) (.error f) k

/-- Two lists of references are given back one after the other, if there is no fault in the first
one. -/
theorem Cascade.split {first rest : List Slot} {n : Nat} {r : Except Fault Unit}
    (hc : h.Cascade (first ++ rest) n r k) :
    (∃ f, r = .error f ∧ h.Cascade first n r k) ∨
      ∃ i j l, n = i + j ∧ h.Cascade first i (.ok ()) l ∧ l.Cascade rest j r k := by
  generalize hpending : first ++ rest = pending at hc
  induction hc generalizing first with
  | @done h =>
    obtain ⟨rfl, rfl⟩ := List.append_eq_nil_iff.1 hpending
    exact .inr ⟨0, 0, h, rfl, .done, .done⟩
  | @fault h s _ f hf =>
    cases first with
    | nil =>
      subst hpending
      exact .inr ⟨0, 1, h, rfl, .done, .fault hf⟩
    | cons _ first =>
      cases hpending
      exact .inl ⟨f, rfl, .fault hf⟩
  | @shared h k s c _ n r hc hlt hrest ih =>
    cases first with
    | nil =>
      subst hpending
      exact .inr ⟨0, n + 1, h, (Nat.zero_add _).symm, .done, .shared hc hlt hrest⟩
    | cons _ first =>
      cases hpending
      obtain ⟨f, rfl, hfirst⟩ | ⟨i, j, l, rfl, hfirst, hlast⟩ := ih rfl
      · exact .inl ⟨f, rfl, .shared hc hlt hfirst⟩
      · exact .inr ⟨i + 1, j, l, by omega, .shared hc hlt hfirst, hlast⟩
  | @last h k l s c _ m n r hc hle hparts hrest _ ih =>
    cases first with
    | nil =>
      subst hpending
      exact .inr ⟨0, m + n + 1, h, (Nat.zero_add _).symm, .done, .last hc hle hparts hrest⟩
    | cons _ first =>
      cases hpending
      obtain ⟨f, rfl, hfirst⟩ | ⟨i, j, l', rfl, hfirst, hlast⟩ := ih rfl
      · exact .inl ⟨f, rfl, .last hc hle hparts hfirst⟩
      · exact .inr ⟨m + i + 1, j, l', by omega, .last hc hle hparts hfirst, hlast⟩
  | @broken h k s c _ n f hc hle hparts ih =>
    cases first with
    | nil =>
      subst hpending
      exact .inr ⟨0, n + 1, h, (Nat.zero_add _).symm, .done, .broken hc hle hparts⟩
    | cons _ first =>
      cases hpending
      exact .inl ⟨f, rfl, .broken hc hle hparts⟩

/-- **Giving back references comes to an end** in every heap.  No more of them are gone about than
those that were asked for, the slots in use and the references in their contents together. -/
theorem exists_cascade (h : Heap) (pending : List Slot) :
    ∃ n ≤ h.weight + pending.length,
      h.Cascade pending n (h.release pending).1 (h.release pending).2 := by
  induction h, pending using Heap.release.induct with
  | case1 h =>
    rw [Heap.release]
    exact ⟨0, Nat.zero_le _, .done⟩
  | case2 h s rest f hf =>
    rw [release_fault hf]
    exact ⟨1, by simp only [List.length_cons]; omega, .fault hf⟩
  | case3 h s rest c hc hlt ih =>
    obtain ⟨n, hn, hcascade⟩ := ih
    rw [weight_put hc] at hn
    rw [access_eq_ok_iff] at hc
    rw [release_shared hc hlt]
    exact ⟨n + 1, by simp only [List.length_cons]; omega, .shared hc hlt hcascade⟩
  | case4 h s rest c hc hle ih =>
    -- one list of references takes the place of the two calls, one inside of the other
    obtain ⟨n, hn, hcascade⟩ := ih
    have hweight := weight_vacate hc
    rw [access_eq_ok_iff] at hc
    rw [release_last hc hle]
    rw [List.length_append] at hn
    have hbound : n + 1 ≤ h.weight + (s :: rest).length := by
      simp only [List.length_cons]
      omega
    obtain ⟨f, heq, hparts⟩ | ⟨i, j, k, rfl, hparts, hrest⟩ := hcascade.split
    · rw [heq] at hparts ⊢
      exact ⟨n + 1, hbound, .broken hc hle hparts⟩
    · exact ⟨i + j + 1, hbound, .last hc hle hparts hrest⟩

/-! ## Placing contents -/

/-- Contents that are placed go to a slot that was empty, and no other slot changes. -/
theorem cell?_allocate (hf : h.FreeExact) (hs : (h.allocate p).1 = .ok s) :
    h.cell? s = none ∧ (h.allocate p).2.cell? s = some ⟨1, p⟩ ∧
      ∀ t, t ≠ s → (h.allocate p).2.cell? t = h.cell? t := by
  cases hb : h.budget.charge p.size with
  | ok b =>
    have hf' := hf.beside b h.depth
    rw [allocate_of_ok hb] at hs ⊢
    cases hs
    exact ⟨cell?_place_fst hf' p, cell?_place_self hf' p, fun t ht => cell?_place_of_ne p ht.symm⟩
  | error e =>
    obtain ⟨⟨e', he'⟩, -⟩ := h.steady_extends.refused (.refl h) hb fun _ _ _ _ => id
    cases hs.symm.trans he'

/-- Contents that are not placed are in no slot afterwards in which they were not before. -/
theorem extends_allocate_of_error {e : Failure} (he : (h.allocate p).1 = .error e) :
    (h.allocate p).2.Extends h := by
  cases hb : h.budget.charge p.size with
  | ok b =>
    rw [allocate_of_ok hb] at he
    cases he
  | error e' => exact (h.steady_extends.refused (.refl h) hb fun _ _ _ _ => id).2

theorem size_le_place (h : Heap) (p : Payload) : h.cells.size ≤ (h.place p).2.cells.size := by
  cases hfree : h.free with
  | cons s rest =>
    rw [place_of_cons hfree]
    exact Nat.le_of_eq Array.size_setIfInBounds.symm
  | nil =>
    rw [place_of_nil hfree, Array.size_push]
    exact Nat.le_succ _

/-- No slot is taken away. -/
theorem size_perform_le (h : Heap) (call : Call) : h.cells.size ≤ (call.perform h).cells.size := by
  have hsteady : Steady fun k => h.cells.size ≤ k.cells.size :=
    { recount := fun _ _ hk => Nat.le_trans hk (Nat.le_of_eq Array.size_setIfInBounds.symm)
      vacate := fun _ hk => Nat.le_trans hk (Nat.le_of_eq Array.size_setIfInBounds.symm) }
  cases call.effect h with
  | allocate hcall =>
    subst hcall
    exact hsteady.allocate (Nat.le_refl _) (fun b _ => size_le_place { h with budget := b } _)
      (Nat.le_refl _)
  | release hcall =>
    subst hcall
    exact hsteady.release (Nat.le_refl _) _
  | put _ _ _ hheap =>
    rw [hheap]
    exact Nat.le_of_eq Array.size_setIfInBounds.symm
  | beside _ _ _ hheap => rw [hheap]

end Heap

/-- **The slots that wait for use are exact under any use.**  Calls may come in any order, give back
references that nobody holds, put anything into a slot in use, be refused or break off on a fault.
After them no slot is listed twice among those that wait for use, and those listed are the ones that
hold nothing; together with the slots in use they are all slots that there ever were.  Contents are
placed in an empty slot and leave the others alone; when they are not placed, no slot gets anything
new.  Giving back references comes to an end, however they lead on.  Requests bring nothing else
about, whatever they end in. -/
theorem free_slots_exact (budget : Budget) :
    (∀ calls : List Heap.Call,
        let h := (Heap.empty budget).run calls
        h.free.Nodup ∧ (∀ s, s ∈ h.free ↔ s < h.cells.size ∧ h.cell? s = none) ∧
          h.live.length + h.free.length = h.cells.size ∧
          (∀ call : Heap.Call, h.cells.size ≤ (call.perform h).cells.size) ∧
          (∀ p s, (h.allocate p).1 = .ok s →
            h.cell? s = none ∧ (h.allocate p).2.cell? s = some ⟨1, p⟩ ∧
              ∀ t, t ≠ s → (h.allocate p).2.cell? t = h.cell? t) ∧
          (∀ p e, (h.allocate p).1 = .error e → (h.allocate p).2.Extends h) ∧
          ∀ pending, ∃ n ≤ h.weight + pending.length,
            h.Cascade pending n (h.release pending).1 (h.release pending).2) ∧
      ∀ requests : List Request, ∃ calls : List Heap.Call,
        (Heap.empty budget).serve requests = (Heap.empty budget).run calls := by
  have hempty : (Heap.empty budget).FreeExact := ⟨.nil, by simp [Heap.empty]⟩
  refine ⟨fun calls => ?_, fun requests => ?_⟩
  · have hf := hempty.run calls
    intro h
    exact ⟨hf.nodup, hf.mem_iff, hf.live_add_free, h.size_perform_le,
      fun p s hs => Heap.cell?_allocate hf hs, fun p e he => Heap.extends_allocate_of_error he,
      h.exists_cascade⟩
  · obtain ⟨calls, -, heq, -⟩ := (Heap.empty budget).exists_calls_serve requests
    exact ⟨calls, heq⟩

end ValueHeap
