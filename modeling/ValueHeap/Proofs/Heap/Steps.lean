import Mathlib.Order.WithBot
import ValueHeap.Proofs.Heap.Tour

/-!
# Walks step by step

A tour has something to do when it enters a place and something when it leaves it again, and in
between it goes through all that is inside.  So there are two orders of places: they are entered in
lexicographic order of the ways to them, and they are left from the inside to the outside.

Both come from one order of the steps.  A step has a moment: for a place that is entered this is the
way to it, and for one that is left it is that way with one more number behind, greater than those
of all parts.  The moments go up in lexicographic order.

## What is here

* `Step` — a place entered or left, and `Step.moment`.
* `Passed` and `LeftBefore` — places that are left before another one is entered, or left.
* `Heap.steps`, `Heap.mem_steps` and `Heap.pairwise_steps` — **all steps there are, in the order of
  their moments**.
* `Heap.tour_eq_steps` — a tour takes the steps one after the other.
-/

set_option autoImplicit false

namespace ValueHeap

/-! ## Moments -/

/-- A step of a walk: a place is entered, or left again. -/
structure Step where
  leaves : Bool
  way : List Nat
  value : Value

/-- The moment of a step.  Leaving a place comes behind all its parts. -/
def Step.moment (step : Step) : List (WithTop Nat) :=
  step.way.map WithTop.some ++ if step.leaves then [⊤] else []

/-- The same step in the part with a number. -/
def Step.within (i : Nat) (step : Step) : Step := { step with way := i :: step.way }

theorem Step.within_eq_iff {leaves : Bool} {i j : Nat} {way : List Nat} {x : Value} {step : Step} :
    step.within j = ⟨leaves, i :: way, x⟩ ↔ j = i ∧ step = ⟨leaves, way, x⟩ := by
  cases step
  simp [within, and_assoc, and_left_comm]

/-- A place is left for good when another one is entered: it lies before that, and not around it. -/
def Passed (way way' : List Nat) : Prop := way < way' ∧ ¬way <+: way'

/-- A place is left before another one is: it is inside that, or it is passed before. -/
def LeftBefore (way way' : List Nat) : Prop := way' <+: way ∧ way' ≠ way ∨ Passed way way'

variable {i j : Nat} {way way' : List Nat} {step step' : Step}

theorem Step.within_lt_within_iff (i j : Nat) (step step' : Step) :
    (step.within i).moment < (step'.within j).moment ↔
      i < j ∨ i = j ∧ step.moment < step'.moment :=
  List.cons_lt_cons_iff.trans
    (or_congr WithTop.coe_lt_coe (and_congr WithTop.coe_inj Iff.rfl))

/-- A place is entered before its parts are. -/
theorem Step.entering_lt_within (i : Nat) (step : Step) (v : Value) :
    Step.moment ⟨false, [], v⟩ < (step.within i).moment :=
  List.nil_lt_cons _ _

/-- A place is left behind its parts. -/
theorem Step.within_lt_leaving (i : Nat) (step : Step) (v : Value) :
    (step.within i).moment < Step.moment ⟨true, [], v⟩ :=
  List.cons_lt_cons_iff.2 (Or.inl (WithTop.coe_lt_top i))

theorem passed_nil_left : ¬Passed [] way := fun h => h.2 List.nil_prefix

theorem passed_nil_right : ¬Passed way [] := fun h => List.not_lt_nil _ h.1

theorem passed_cons_iff : Passed (i :: way) (j :: way') ↔ i < j ∨ i = j ∧ Passed way way' := by
  rw [Passed, Passed, List.cons_lt_cons_iff, List.cons_prefix_cons]
  constructor
  · rintro ⟨hlt | ⟨rfl, hlt⟩, hin⟩
    · exact Or.inl hlt
    · exact Or.inr ⟨rfl, hlt, fun h => hin ⟨rfl, h⟩⟩
  · rintro (hlt | ⟨rfl, hlt, hin⟩)
    · exact ⟨Or.inl hlt, fun h => hlt.ne h.1⟩
    · exact ⟨Or.inr ⟨rfl, hlt⟩, fun h => hin h.2⟩

/-- A place is passed if it is left before the other one is entered. -/
theorem moment_lt_entering_iff (v w : Value) :
    Step.moment ⟨true, way, v⟩ < Step.moment ⟨false, way', w⟩ ↔ Passed way way' := by
  induction way generalizing way' with
  | nil =>
    refine iff_of_false (fun h => ?_) passed_nil_left
    cases way' with
    | nil => exact List.not_lt_nil _ h
    | cons j way' =>
      exact lt_asymm h (Step.within_lt_leaving j ⟨false, way', w⟩ v)
  | cons i way ih =>
    cases way' with
    | nil => exact iff_of_false (List.not_lt_nil _) passed_nil_right
    | cons j way' =>
      rw [passed_cons_iff, ← ih]
      exact Step.within_lt_within_iff i j ⟨true, way, v⟩ ⟨false, way', w⟩

theorem leftBefore_cons_iff :
    LeftBefore (i :: way) (j :: way') ↔ i < j ∨ i = j ∧ LeftBefore way way' := by
  rw [LeftBefore, LeftBefore, passed_cons_iff, List.cons_prefix_cons, Ne, List.cons.injEq]
  constructor
  · rintro (⟨⟨rfl, hin⟩, hne⟩ | hlt | ⟨rfl, hpassed⟩)
    · exact Or.inr ⟨rfl, Or.inl ⟨hin, fun h => hne ⟨rfl, h⟩⟩⟩
    · exact Or.inl hlt
    · exact Or.inr ⟨rfl, Or.inr hpassed⟩
  · rintro (hlt | ⟨rfl, ⟨hin, hne⟩ | hpassed⟩)
    · exact Or.inr (Or.inl hlt)
    · exact Or.inl ⟨⟨rfl, hin⟩, fun h => hne h.2⟩
    · exact Or.inr (Or.inr ⟨rfl, hpassed⟩)

/-- Places are left in the order of the moments of that. -/
theorem moment_lt_leaving_iff (v w : Value) :
    Step.moment ⟨true, way, v⟩ < Step.moment ⟨true, way', w⟩ ↔ LeftBefore way way' := by
  induction way generalizing way' with
  | nil =>
    cases way' with
    | nil => exact iff_of_false (lt_irrefl _) fun h => h.elim (fun h => h.2 rfl) passed_nil_left
    | cons j way' =>
      refine iff_of_false (fun h => ?_) fun h => h.elim (fun h => ?_) passed_nil_left
      · exact lt_asymm h (Step.within_lt_leaving j ⟨true, way', w⟩ v)
      · exact List.cons_ne_nil _ _ (List.prefix_nil.1 h.1)
  | cons i way ih =>
    cases way' with
    | nil =>
      have hnil : [] <+: i :: way := List.nil_prefix
      refine iff_of_true ?_ (Or.inl ⟨hnil, (List.cons_ne_nil _ _).symm⟩)
      exact Step.within_lt_leaving i ⟨true, way, v⟩ w
    | cons j way' =>
      rw [leftBefore_cons_iff, ← ih]
      exact Step.within_lt_within_iff i j ⟨true, way, v⟩ ⟨true, way', w⟩

/-- Places are entered in the order of the ways to them. -/
theorem entering_lt_entering_iff (v w : Value) :
    Step.moment ⟨false, way, v⟩ < Step.moment ⟨false, way', w⟩ ↔ way < way' := by
  induction way generalizing way' with
  | nil =>
    cases way' with
    | nil => exact iff_of_false (lt_irrefl _) (lt_irrefl _)
    | cons j way' => exact iff_of_true (List.nil_lt_cons _ _) (List.nil_lt_cons _ _)
  | cons i way ih =>
    cases way' with
    | nil => exact iff_of_false (List.not_lt_nil _) (List.not_lt_nil _)
    | cons j way' =>
      rw [List.cons_lt_cons_iff, ← ih]
      exact Step.within_lt_within_iff i j ⟨false, way, v⟩ ⟨false, way', w⟩

/-- What is passed before a place is entered is passed before a later one is. -/
theorem Passed.trans_le {way'' : List Nat} (hpassed : Passed way way') (hle : way' ≤ way'') :
    Passed way way'' := by
  rw [← moment_lt_entering_iff .none .none] at hpassed ⊢
  rcases hle.eq_or_lt with rfl | hlt
  · exact hpassed
  · exact hpassed.trans ((entering_lt_entering_iff _ _).2 hlt)

theorem LeftBefore.trans_passed {way'' : List Nat} (hleft : LeftBefore way way')
    (hpassed : Passed way' way'') : Passed way way'' := by
  rw [← moment_lt_leaving_iff .none .none] at hleft
  rw [← moment_lt_entering_iff .none .none] at hpassed ⊢
  exact hleft.trans hpassed

/-- A place is entered before any place in it is left. -/
theorem entering_lt_leaving (hin : way' <+: way) (v w : Value) :
    Step.moment ⟨false, way', v⟩ < Step.moment ⟨true, way, w⟩ := by
  induction way generalizing way' with
  | nil =>
    rw [List.prefix_nil.1 hin]
    exact List.nil_lt_cons _ _
  | cons i way ih =>
    cases way' with
    | nil => exact Step.entering_lt_within i ⟨true, way, w⟩ v
    | cons j way' =>
      obtain ⟨rfl, htail⟩ := List.cons_prefix_cons.1 hin
      exact (Step.within_lt_within_iff _ _ ⟨false, way', v⟩ ⟨true, way, w⟩).2
        (Or.inr ⟨rfl, ih htail⟩)

/-! ## Steps in order -/

namespace Heap

variable {h : Heap} {op : StructuralOperation} {v : Value} {n : Nat}

/-- The steps of the walk down to so many parts of parts, one after the other. -/
def steps (h : Heap) (op : StructuralOperation) : Nat → Value → List Step
  | 0, v => [⟨false, [], v⟩, ⟨true, [], v⟩]
  | n + 1, v =>
    ⟨false, [], v⟩ :: ((h.next op v).zipIdx.flatMap fun part =>
      (h.steps op n part.1).map (Step.within part.2)) ++ [⟨true, [], v⟩]

theorem mem_steps :
    step ∈ h.steps op n v ↔ step.way.length ≤ n ∧ h.follow op step.way v = some step.value := by
  induction n generalizing step v with
  | zero =>
    obtain ⟨leaves, way, x⟩ := step
    cases leaves <;> cases way <;> simp [steps, follow, @eq_comm _ v x]
  | succ n ih =>
    obtain ⟨leaves, way, x⟩ := step
    cases way with
    | nil => cases leaves <;> simp [steps, follow, Step.within, @eq_comm _ v x]
    | cons i way =>
      simp [steps, follow, ih, Step.within_eq_iff, Option.bind_eq_some_iff,
        List.mem_zipIdx_iff_getElem?, and_left_comm]

/-- A place that is left is entered too. -/
theorem entering_mem_steps {x : Value} (hmem : ⟨true, way, x⟩ ∈ h.steps op n v) :
    ⟨false, way, x⟩ ∈ h.steps op n v := by
  have hplace := mem_steps.1 hmem
  exact mem_steps.2 hplace

/-- **The steps are taken in the order of their moments.** -/
theorem pairwise_steps (h : Heap) (op : StructuralOperation) (n : Nat) (v : Value) :
    (h.steps op n v).Pairwise fun step step' => step.moment < step'.moment := by
  induction n generalizing v with
  | zero => exact List.pairwise_pair.2 (List.nil_lt_cons _ _)
  | succ n ih =>
    have hinside {t : Step} (ht : t ∈ (h.next op v).zipIdx.flatMap fun part =>
        (h.steps op n part.1).map (Step.within part.2)) : ∃ i below, t = Step.within i below := by
      obtain ⟨part, -, hmem⟩ := List.mem_flatMap.1 ht
      obtain ⟨below, -, rfl⟩ := List.mem_map.1 hmem
      exact ⟨_, _, rfl⟩
    rw [steps, List.pairwise_append, List.pairwise_cons, List.pairwise_flatMap]
    refine ⟨⟨fun t ht => ?_, fun part _ => ?_, ?_⟩, List.pairwise_singleton _ _, ?_⟩
    · obtain ⟨i, below, rfl⟩ := hinside ht
      exact Step.entering_lt_within i below v
    · exact List.pairwise_map.2
        ((ih part.1).imp fun hlt => (Step.within_lt_within_iff _ _ _ _).2 (Or.inr ⟨rfl, hlt⟩))
    · refine (pairwise_zipIdx _).imp fun {part part'} hlt t ht t' ht' => ?_
      obtain ⟨below, -, rfl⟩ := List.mem_map.1 ht
      obtain ⟨below', -, rfl⟩ := List.mem_map.1 ht'
      exact (Step.within_lt_within_iff _ _ _ _).2 (Or.inl hlt)
    · rintro t ht _ (_ | ⟨_, ⟨⟩⟩)
      rcases List.mem_cons.1 ht with rfl | ht
      · exact List.nil_lt_cons _ _
      · obtain ⟨i, below, rfl⟩ := hinside ht
        exact Step.within_lt_leaving i below v

variable {enter leave : Nat → Value → Answer Unit}

/-- What a tour does at a step. -/
def visit (enter leave : Nat → Value → Answer Unit) (n : Nat) (step : Step) : Answer Unit :=
  (if step.leaves then leave else enter) (n - step.way.length) step.value

theorem visit_within (i n : Nat) (step : Step) :
    visit enter leave (n + 1) (step.within i) = visit enter leave n step := by
  rw [visit, visit, Step.within, List.length_cons, Nat.add_sub_add_right]

/-- **A tour takes the steps one after the other.** -/
theorem tour_eq_steps (enter leave : Nat → Value → Answer Unit) (n : Nat) (v : Value) :
    h.tour op enter leave n v = forM (h.steps op n v) (visit enter leave n) := by
  induction n generalizing v with
  | zero => rw [tour, steps, List.forM_cons, List.forM_cons, List.forM_nil, bind_pure_unit]; rfl
  | succ n ih =>
    rw [tour, steps, List.cons_append, List.forM_cons, List.forM_append, Answer.forM_flatMap,
      Answer.forM_zipIdx]
    simp only [ih, List.forM_map, List.forM_cons, List.forM_nil, bind_pure_unit, visit_within]
    rfl

/-- Every step is before another one, or that itself, or at a later moment. -/
theorem before_or_after {before after : List Step}
    (hsteps : h.steps op n v = before ++ step :: after) (hmem : step' ∈ h.steps op n v) :
    step' ∈ before ∨ step' = step ∨ step.moment < step'.moment := by
  have hsorted := h.pairwise_steps op n v
  rw [hsteps] at hsorted hmem
  have hafters := (List.pairwise_append.1 hsorted).2.1
  rcases List.mem_append.1 hmem with hmem | hmem
  · exact Or.inl hmem
  · rcases List.mem_cons.1 hmem with hmem | hmem
    · exact Or.inr (Or.inl hmem)
    · exact Or.inr (Or.inr ((List.pairwise_cons.1 hafters).1 _ hmem))

/-- The steps before one of them are those with an earlier moment. -/
theorem mem_before_iff {before after : List Step}
    (hsteps : h.steps op n v = before ++ step :: after) :
    step' ∈ before ↔ step' ∈ h.steps op n v ∧ step'.moment < step.moment := by
  constructor
  · intro hmem
    have hsorted := h.pairwise_steps op n v
    rw [hsteps] at hsorted ⊢
    exact ⟨List.mem_append_left _ hmem,
      (List.pairwise_append.1 hsorted).2.2 _ hmem _ List.mem_cons_self⟩
  · rintro ⟨hmem, hlt⟩
    rcases before_or_after hsteps hmem with hmem | rfl | hgt
    · exact hmem
    · exact absurd hlt (lt_irrefl _)
    · exact absurd hlt (lt_asymm hgt)

end Heap

end ValueHeap
