import Mathlib.Data.Fintype.Card
import ValueHeap.Fingerprint
import ValueHeap.Proofs.Faultless.Types
import ValueHeap.Proofs.Object.Active

/-!
# Fingerprints and snapshots in a coherent heap

A fingerprint is cut off by the limit on nesting, and a snapshot by the slots on the way down: none
of them is met twice, so the way is never longer than the number of slots.

## What is here

* `Fingerprint.within_faultless` — fingerprints.
* `Heap.exists_snapshot` — snapshots, which always succeed.
-/

set_option autoImplicit false

namespace ValueHeap

variable {h : Heap}

/-! ## Fingerprints -/

namespace Fingerprint

open Answer

theorem ofInt_faultless (limit : Option Nat) (n : Int) : (ofInt limit n).Faultless := by
  simp only [ofInt]
  split
  · exact .pure _
  · exact (Faultless.report _).bind fun _ _ => .pure _

theorem fold_faultless {part : Value → Answer Int64} {acc : Int64} {values : List Value}
    (hpart : ∀ v ∈ values, (part v).Faultless) : (fold part acc values).Faultless := by
  induction values generalizing acc with
  | nil => exact .pure acc
  | cons v rest ih =>
    rw [fold]
    exact (hpart v List.mem_cons_self).bind fun word _ =>
      ih fun w hw => hpart w (List.mem_cons_of_mem v hw)

theorem foldEntries_faultless {part : Value → Answer Int64} {acc : Int64} {entries : List Entry}
    (hpart : ∀ e ∈ entries, (part e.key.value).Faultless ∧ (part e.value).Faultless) :
    (foldEntries part acc entries).Faultless := by
  induction entries generalizing acc with
  | nil => exact .pure acc
  | cons e rest ih =>
    rw [foldEntries]
    obtain ⟨hkey, hvalue⟩ := hpart e List.mem_cons_self
    exact hkey.bind fun _ _ => hvalue.bind fun _ _ =>
      ih fun f hf => hpart f (List.mem_cons_of_mem e hf)

theorem ofValue_faultless (hc : h.Coherent) {inside : Option (Value → Answer Int64)}
    (hinside : ∀ part ∈ inside, ∀ v, h.Names v → (part v).Faultless) (levels : Nat) {v : Value}
    (hv : h.Names v) : (ofValue h levels inside v).Faultless := by
  have hcontents {x : (Value → Answer Int64) → Answer Int64}
      (hx : ∀ part, (∀ v, h.Names v → (part v).Faultless) → (x part).Faultless) :
      (ofValue.contents h inside x).Faultless := by
    simp only [ofValue.contents]
    cases inside with
    | none => exact .refuse _ _
    | some part => exact hx part (hinside part rfl)
  cases v with
  | int n => exact ofInt_faultless _ _
  | ref s =>
    obtain ⟨p, hread, hp⟩ := Heap.exists_read hv
    rw [ofValue]
    refine (Faultless.look hread).bind fun q hq => ?_
    rw [result_look_eq_ok, hread, Except.ok.injEq] at hq
    subst hq
    cases p with
    | longInt n => exact ofInt_faultless _ _
    | userInstance cls =>
      have hgood : h.GoodType (.userClass cls) := by
        intro t ht
        cases ht
        exact (hc.fits s _ hp).classes cls List.mem_cons_self
      obtain ⟨name, hname⟩ := Heap.exists_nameOfType hgood
      exact (Faultless.look hname).bind fun _ _ => .raise _
    | list items =>
      exact hcontents fun part hpart => fold_faultless fun x hx => hpart x (hc.closed.names hp hx)
    | tuple items =>
      exact hcontents fun part hpart => fold_faultless fun x hx => hpart x (hc.closed.names hp hx)
    | set elements =>
      exact hcontents fun part hpart => fold_faultless fun x hx => hpart x (hc.closed.names hp hx)
    | dict entries =>
      refine hcontents fun part hpart => foldEntries_faultless fun e he => ⟨?_, ?_⟩ <;>
        exact hpart _ (hc.closed.names hp (List.mem_flatMap.2 ⟨e, he, by simp [Entry.parts]⟩))
    | _ => exact .pure _
  | _ => exact .pure _

/-- **Fingerprinting a value in use meets no fault.** -/
theorem within_faultless (hc : h.Coherent) (n : Nat) {v : Value} (hv : h.Names v) :
    (within h n v).Faultless := by
  induction n generalizing v with
  | zero => exact ofValue_faultless hc (fun part hpart => by cases hpart) 0 hv
  | succ n ih =>
    refine ofValue_faultless hc (fun part hpart v hv => ?_) (n + 1) hv
    cases hpart
    exact ih hv

end Fingerprint

/-! ## Snapshots -/

theorem exists_mapM {α β : Type} {f : α → Except Fault β} {xs : List α}
    (hf : ∀ x ∈ xs, ∃ y, f x = .ok y) : ∃ ys, xs.mapM f = .ok ys := by
  induction xs with
  | nil => exact ⟨[], rfl⟩
  | cons x rest ih =>
    obtain ⟨y, hy⟩ := hf x List.mem_cons_self
    obtain ⟨ys, hys⟩ := ih fun z hz => hf z (List.mem_cons_of_mem x hz)
    rw [List.mapM_cons]
    exact ⟨y :: ys, bind_eq_ok.2 ⟨y, hy, bind_eq_ok.2 ⟨ys, hys, rfl⟩⟩⟩

namespace Heap

theorem exists_map {α β : Type} {x : Except Fault α} (f : α → β) (hx : ∃ a, x = .ok a) :
    ∃ b, f <$> x = .ok b := by
  obtain ⟨a, rfl⟩ := hx
  exact ⟨f a, rfl⟩

theorem exists_objectOf (hc : h.Coherent) {part : Value → Except Fault Object} {s : Slot}
    {p : Payload} (hp : h.find? s = some p) (hpart : ∀ v ∈ p.parts, ∃ o, part v = .ok o) :
    ∃ o, h.objectOf part p = .ok o := by
  cases p with
  | list items => exact exists_map _ (exists_mapM hpart)
  | tuple items => exact exists_map _ (exists_mapM hpart)
  | set elements =>
    exact exists_map _ (exists_mapM fun k hk => hpart _ (List.mem_map_of_mem hk))
  | dict entries =>
    refine exists_map _ (exists_mapM fun e he => ?_)
    obtain ⟨key, hkey⟩ := hpart e.key.value (List.mem_flatMap.2 ⟨e, he, by simp [Entry.parts]⟩)
    obtain ⟨value, hvalue⟩ := hpart e.value (List.mem_flatMap.2 ⟨e, he, by simp [Entry.parts]⟩)
    exact ⟨_, bind_eq_ok.2 ⟨key, hkey, bind_eq_ok.2 ⟨value, hvalue, rfl⟩⟩⟩
  | slice start stop step =>
    obtain ⟨first, hfirst⟩ := hpart start (by simp [Payload.parts])
    obtain ⟨second, hsecond⟩ := hpart stop (by simp [Payload.parts])
    obtain ⟨third, hthird⟩ := hpart step (by simp [Payload.parts])
    exact ⟨_, bind_eq_ok.2 ⟨first, hfirst,
      bind_eq_ok.2 ⟨second, hsecond, bind_eq_ok.2 ⟨third, hthird, rfl⟩⟩⟩⟩
  | userInstance cls =>
    have hgood : h.GoodType (.userClass cls) := by
      intro t ht
      cases ht
      exact (hc.fits s _ hp).classes cls List.mem_cons_self
    obtain ⟨name, hname⟩ := exists_nameOfType hgood
    exact ⟨_, bind_eq_ok.2 ⟨name, hname, rfl⟩⟩
  | _ => exact ⟨_, rfl⟩

/-- A way down without repetitions is no longer than the number of slots. -/
theorem length_le_of_nodup {path : List Slot} {n : Nat} (hpath : path.Nodup)
    (hlt : ∀ s ∈ path, s < n) : path.length ≤ n := by
  rw [← List.toFinset_card_of_nodup hpath, ← Finset.card_range n]
  refine Finset.card_le_card fun s hs => ?_
  exact Finset.mem_range.2 (hlt s (List.mem_toFinset.1 hs))

theorem exists_snapshotFrom (hc : h.Coherent) {slots : Nat} {path : List Slot} {v : Value}
    (hpath : path.Nodup) (hlt : ∀ s ∈ path, s < h.cells.size)
    (hslots : h.cells.size ≤ slots + path.length) (hv : h.Names v) :
    ∃ o, h.snapshotFrom slots path v = .ok o := by
  have hlive {s : Slot} {p : Payload} (hp : h.find? s = some p) : s < h.cells.size := by
    obtain ⟨c, hc, -⟩ := Option.map_eq_some_iff.1 hp
    exact lt_size_of_cell? hc
  induction slots generalizing path v with
  | zero =>
    cases v with
    | ref s =>
      obtain ⟨p, hread, hp⟩ := exists_read hv
      -- every slot is on the way, so this one is
      have hmem : s ∈ path := by
        by_contra hnot
        have hle := length_le_of_nodup (List.nodup_cons.2 ⟨hnot, hpath⟩)
          (List.forall_mem_cons.2 ⟨hlive hp, hlt⟩)
        rw [List.length_cons] at hle
        omega
      rw [snapshotFrom, hread]
      simp only [if_pos hmem]
      exact ⟨_, rfl⟩
    | _ => exact ⟨_, rfl⟩
  | succ slots ih =>
    cases v with
    | ref s =>
      obtain ⟨p, hread, hp⟩ := exists_read hv
      rw [snapshotFrom, hread]
      by_cases hmem : s ∈ path
      · simp only [if_pos hmem]
        exact ⟨_, rfl⟩
      · simp only [if_neg hmem]
        refine exists_objectOf hc hp fun x hx => ?_
        refine ih (List.nodup_cons.2 ⟨hmem, hpath⟩) (List.forall_mem_cons.2 ⟨hlive hp, hlt⟩) ?_
          (hc.closed.names hp hx)
        rw [List.length_cons]
        omega
    | _ => exact ⟨_, rfl⟩

/-- **Every value in use has a snapshot.** -/
theorem exists_snapshot (hc : h.Coherent) {v : Value} (hv : h.Names v) :
    ∃ o, h.snapshot v = .ok o := by
  rw [snapshot_eq_snapshotFrom]
  exact exists_snapshotFrom hc List.nodup_nil (fun _ hs => absurd hs List.not_mem_nil)
    (Nat.le_refl _) hv

end Heap

end ValueHeap
