import Mathlib.Data.List.Lex
import Mathlib.Data.Set.Finite.List
import ValueHeap.Proofs.Copy.Corresponds

/-!
# Walks through the parts of a value

The structural operations go through a value depth first: a part before what it is made of, and the
parts of a container from the first to the last.  A place on such a walk is told by the way to it,
which is the list of the numbers of the parts that lead there, and one place comes before another
when its way comes first in lexicographic order.  So the order is there for walks without end as
well, which a list of places could not hold: a list that contains itself has ways of any length.

## What is here

* `StructuralOperation.partsOf` — the parts of contents that an operation goes into.
* `Heap.follow` — the value at the end of a way.
* `Heap.walk` — the places down to some depth, in the order in which they are met.
* `Heap.mem_walk` and `Heap.pairwise_walk` — **these are all places there are, in lexicographic
  order**.
* `Heap.ways` — all ways, and `Heap.exists_long_way`: without end there are ways of any length.
-/

set_option autoImplicit false

namespace ValueHeap

/-! ## The parts that an operation goes into -/

namespace StructuralOperation

/-- The parts of contents that an operation goes into, in order.  Both go into lists, tuples and
dicts, but a copy shares the keys of dicts, and the elements of sets. -/
def partsOf : StructuralOperation → Payload → List Value
  | deepCopy, p => p.copiedParts
  | deepHash, p => if p.isRebuilt then p.parts else []

variable {op : StructuralOperation} {p : Payload} {v : Value}

theorem partsOf_eq_nil (hp : p.isRebuilt = false) : op.partsOf p = [] := by
  cases op with
  | deepCopy => cases p <;> first | rfl | cases hp
  | deepHash => rw [partsOf, hp, if_neg Bool.false_ne_true]

theorem isRebuilt_of_partsOf (hv : v ∈ op.partsOf p) : p.isRebuilt = true := by
  by_contra hp
  rw [partsOf_eq_nil (Bool.eq_false_iff.2 hp)] at hv
  cases hv

end StructuralOperation

namespace Heap

/-- The parts of a value that an operation goes into. -/
def next (h : Heap) (op : StructuralOperation) : Value → List Value
  | .ref s => (h.find? s).elim [] op.partsOf
  | _ => []

/-- The value at the end of a way, where `i` stands for the part with that number. -/
def follow (h : Heap) (op : StructuralOperation) : List Nat → Value → Option Value
  | [], v => some v
  | i :: way, v => (h.next op v)[i]?.bind (h.follow op way)

/-- The places down to so many parts of parts, each with the way to it, in the order in which they
are met. -/
def walk (h : Heap) (op : StructuralOperation) : Nat → Value → List (List Nat × Value)
  | 0, v => [([], v)]
  | n + 1, v => ([], v) :: (h.next op v).zipIdx.flatMap fun part =>
      (h.walk op n part.1).map fun place => (part.2 :: place.1, place.2)

variable {h : Heap} {op : StructuralOperation} {s : Slot} {p : Payload} {v w x : Value} {n : Nat}
  {way way' : List Nat}

theorem next_ref (hp : h.find? s = some p) : h.next op (.ref s) = op.partsOf p := by
  rw [next, hp]
  rfl

theorem next_eq_nil (hv : v.slot? = none) : h.next op v = [] := by
  cases v with
  | ref s => cases hv
  | _ => rfl

/-- What is gone into is a container. -/
theorem exists_container_of_next (hx : x ∈ h.next op v) :
    ∃ s p, v = .ref s ∧ h.find? s = some p ∧ x ∈ op.partsOf p := by
  cases v with
  | ref s =>
    cases hp : h.find? s with
    | none =>
      rw [next, hp] at hx
      cases hx
    | some p => exact ⟨s, p, rfl, hp, next_ref hp ▸ hx⟩
  | _ => cases hx

/-! ## Ways -/

theorem follow_cons (i : Nat) (way : List Nat) (v : Value) :
    h.follow op (i :: way) v = (h.next op v)[i]?.bind (h.follow op way) := rfl

theorem follow_append (way way' : List Nat) (v : Value) :
    h.follow op (way ++ way') v = (h.follow op way v).bind (h.follow op way') := by
  induction way generalizing v with
  | nil => rfl
  | cons i way ih =>
    rw [List.cons_append, follow_cons, follow_cons, Option.bind_assoc]
    exact congrArg _ (funext ih)

/-- The value at any place on the way but the last is a container. -/
theorem exists_container_of_follow (hx : h.follow op way v = some x) (hn : n < way.length) :
    ∃ s p, h.follow op (way.take n) v = some (.ref s) ∧ h.find? s = some p ∧
      p.isRebuilt = true := by
  rw [← List.take_append_drop n way, follow_append, Option.bind_eq_some_iff,
    List.drop_eq_getElem_cons hn] at hx
  obtain ⟨w, hw, hrest⟩ := hx
  rw [follow_cons, Option.bind_eq_some_iff] at hrest
  obtain ⟨y, hy, -⟩ := hrest
  obtain ⟨s, p, rfl, hp, hmem⟩ := exists_container_of_next (List.mem_of_getElem? hy)
  exact ⟨s, p, hw, hp, StructuralOperation.isRebuilt_of_partsOf hmem⟩

/-- A way comes after each way that leads to a place on it. -/
theorem take_le (n : Nat) (way : List Nat) : way.take n ≤ way := by
  refine not_lt.1 fun hlt => ?_
  induction way generalizing n with
  | nil =>
    rw [List.take_nil] at hlt
    exact absurd hlt (List.not_lt_nil _)
  | cons i way ih =>
    cases n with
    | zero => exact absurd hlt (List.not_lt_nil _)
    | succ n =>
      rcases List.cons_lt_cons_iff.1 hlt with hii | ⟨-, hlt⟩
      · exact absurd hii (Nat.lt_irrefl i)
      · exact ih n hlt

/-! ## Places in order -/

theorem mem_walk : (way, x) ∈ h.walk op n v ↔ way.length ≤ n ∧ h.follow op way v = some x := by
  induction n generalizing way v with
  | zero =>
    rw [walk, List.mem_singleton, Prod.mk.injEq, Nat.le_zero, List.length_eq_zero_iff]
    refine and_congr_right ?_
    rintro rfl
    rw [follow, Option.some_inj, eq_comm]
  | succ n ih =>
    rw [walk]
    cases way with
    | nil => simp [follow, eq_comm]
    | cons i way =>
      simp [follow, ih, Option.bind_eq_some_iff, List.mem_zipIdx_iff_getElem?, and_left_comm]

/-- The numbers of parts go up. -/
theorem pairwise_zipIdx {α : Type} (xs : List α) :
    xs.zipIdx.Pairwise fun part part' => part.2 < part'.2 := by
  rw [← List.pairwise_map, List.zipIdx_map_snd]
  exact List.pairwise_lt_range'

/-- **The places are met in lexicographic order** of the ways to them. -/
theorem pairwise_walk (h : Heap) (op : StructuralOperation) (n : Nat) (v : Value) :
    (h.walk op n v).Pairwise fun place place' => place.1 < place'.1 := by
  induction n generalizing v with
  | zero => exact List.pairwise_singleton _ _
  | succ n ih =>
    refine List.pairwise_cons.2 ⟨?_, List.pairwise_flatMap.2 ⟨?_, ?_⟩⟩
    · intro place hplace
      obtain ⟨part, -, hmem⟩ := List.mem_flatMap.1 hplace
      obtain ⟨below, -, rfl⟩ := List.mem_map.1 hmem
      exact List.nil_lt_cons _ _
    · intro part _
      exact List.pairwise_map.2
        ((ih part.1).imp fun hlt => List.cons_lt_cons_iff.2 (Or.inr ⟨rfl, hlt⟩))
    · refine (pairwise_zipIdx _).imp fun {part part'} hlt place hplace place' hplace' => ?_
      obtain ⟨below, -, rfl⟩ := List.mem_map.1 hplace
      obtain ⟨below', -, rfl⟩ := List.mem_map.1 hplace'
      exact List.cons_lt_cons_iff.2 (Or.inl hlt)

/-! ## Walks without end -/

/-- All ways through a value. -/
def ways (h : Heap) (op : StructuralOperation) (v : Value) : Set (List Nat) :=
  {way | (h.follow op way v).isSome}

/-- **A walk without end has ways of any length**, since a value has finitely many parts. -/
theorem exists_long_way (hv : (h.ways op v).Infinite) (n : Nat) :
    ∃ way x, h.follow op way v = some x ∧ n < way.length := by
  by_contra hnone
  push Not at hnone
  refine hv (((h.walk op n v).map Prod.fst).finite_toSet.subset fun way hway => ?_)
  obtain ⟨x, hx⟩ := Option.isSome_iff_exists.1 hway
  exact List.mem_map.2 ⟨(way, x), mem_walk.2 ⟨hnone way x hx, hx⟩, rfl⟩

end Heap

end ValueHeap
