import ValueHeap.Proofs.Copy.Forecast
import ValueHeap.Proofs.Heap.Steps
import ValueHeap.Proofs.Observers

/-!
# What a copy reports

A copy goes through a value depth first and reports each container when it is rebuilt, behind all of
its parts.  So its reports tell the containers in the order in which they are left, with those
inside before those around them, and a container that is met in several places is told once for
each.

A copy that fails has reported the containers that were left up to then.  There are two moments at
which it can fail: when it comes to a place that stops it, and when it leaves a container whose copy
is refused by the accounts.  In the first case these are the containers that it has passed.  In the
second they are all that are left before that one, and they are what the accounts were charged for
before.

## What is here

* `Heap.ContainerAt` and `Heap.ReportedAs` — the containers that a copy meets, and their reports.
* `Copy.completed` and `Copy.reported_of_steps` — the containers that are left on some steps, and
  that the steps report them.
* `Copy.paid_forecast_cases` — what a copy comes to, by the step that it ends with.
* `deepCopy_reports` — **a copy reports the containers that it completed, in the order in which they
  are left**, and a missing level if that is what stopped it.
-/

set_option autoImplicit false

namespace ValueHeap

/-! ## Containers and their reports -/

namespace Heap

/-- A list, tuple, dict or set that a copy meets at the end of a way. -/
def ContainerAt (h : Heap) (v : Value) (way : List Nat) : Prop :=
  ∃ s p, h.follow .deepCopy way v = some (.ref s) ∧ h.find? s = some p ∧ p.isRebuilt = true

/-- The report of a container at the end of a way: its type, its number of entries, and the level
that is entered for its parts. -/
inductive ReportedAs (h : Heap) (v : Value) (way : List Nat) : Event → Prop
  | copied {s : Slot} {p : Payload} {ty : BuiltinType} {length : Nat}
      (hs : h.follow .deepCopy way v = some (.ref s)) (hp : h.find? s = some p)
      (hrebuilt : p.isRebuilt = true) (htype : p.typeRef = .builtin ty)
      (hlength : p.length? = some length) :
      ReportedAs h v way (.copied ty length (h.depth + (way.length + 1)))

/-- How a copy ends that has completed some containers and has left some accounts. -/
inductive CopyEnds {α : Type} (h : Heap) (v : Value) (finished : List (List Nat)) (left : Budget) :
    Except Failure α → Prop
  /-- All containers are completed. -/
  | done {a : α} (hfinished : ∀ way, way ∈ finished ↔ h.ContainerAt v way) :
      CopyEnds h v finished left (.ok a)
  /-- The copy came to the first place that stops it, and the containers are completed that it has
  passed. -/
  | stopped {way : List Nat} {e : RunError} (hfirst : h.FirstOffence .deepCopy v way e)
      (hfinished : ∀ way', way' ∈ finished ↔ h.ContainerAt v way' ∧ Passed way' way) :
      CopyEnds h v finished left (.error (.error e))
  /-- The copy of a container was refused, after all of its parts.  The containers are completed
  that are left before it, and what would have stopped the copy comes behind it. -/
  | refused {way : List Nat} {s : Slot} {p : Payload} {failure : Failure}
      (hs : h.follow .deepCopy way v = some (.ref s)) (hp : h.find? s = some p)
      (hrebuilt : p.isRebuilt = true) (hcharge : left.charge p.size = .error failure)
      (hlater : ∀ way' e, h.OffendsAt .deepCopy v way' e → Passed way way')
      (hfinished : ∀ way', way' ∈ finished ↔ h.ContainerAt v way' ∧ LeftBefore way' way) :
      CopyEnds h v finished left (.error failure)

theorem CopyEnds.of_map {α β : Type} {h : Heap} {v : Value} {finished : List (List Nat)}
    {left : Budget} {f : α → β} {r : Except Failure α}
    (hr : h.CopyEnds v finished left (r.map f)) : h.CopyEnds v finished left r := by
  cases r with
  | ok a =>
    cases hr with
    | done hfinished => exact .done hfinished
  | error failure =>
    cases hr with
    | stopped hfirst hfinished => exact .stopped hfirst hfinished
    | refused hs hp hrebuilt hcharge hlater hfinished =>
      exact .refused hs hp hrebuilt hcharge hlater hfinished

/-- What is reported in the end: a level that is missing, by an operation that fails for that. -/
def missingLevel {α : Type} (h : Heap) : Except Failure α → List Event
  | .ok _ => []
  | .error failure =>
    if failure = .error (.resource h.budget.noLevelLeft) then [.tooDeep h.budget.depthLimit] else []

theorem missingLevel_map {α β : Type} (h : Heap) (f : α → β) (r : Except Failure α) :
    h.missingLevel (r.map f) = h.missingLevel r := by
  cases r <;> rfl

/-- Whether a value is a container that is rebuilt. -/
def isContainer (h : Heap) : Value → Bool
  | .ref s => (h.find? s).elim false Payload.isRebuilt
  | _ => false

theorem isContainer_ref {h : Heap} {s : Slot} {p : Payload} (hp : h.find? s = some p) :
    h.isContainer (.ref s) = p.isRebuilt := by
  rw [isContainer, hp]
  rfl

theorem isContainer_iff {h : Heap} {x : Value} :
    h.isContainer x = true ↔ ∃ s p, x = .ref s ∧ h.find? s = some p ∧ p.isRebuilt = true := by
  constructor
  · intro hx
    cases x with
    | ref s =>
      cases hp : h.find? s with
      | none =>
        rw [isContainer, hp] at hx
        cases hx
      | some p => exact ⟨s, p, rfl, hp, isContainer_ref hp ▸ hx⟩
    | _ => cases hx
  · rintro ⟨s, p, rfl, hp, hrebuilt⟩
    rw [isContainer_ref hp, hrebuilt]

theorem containerAt_iff {h : Heap} {v : Value} {way : List Nat} :
    h.ContainerAt v way ↔ ∃ x, h.follow .deepCopy way v = some x ∧ h.isContainer x = true := by
  simp only [ContainerAt, isContainer_iff]
  constructor
  · rintro ⟨s, p, hs, hp, hrebuilt⟩
    exact ⟨_, hs, s, p, rfl, hp, hrebuilt⟩
  · rintro ⟨_, hs, s, p, rfl, hp, hrebuilt⟩
    exact ⟨s, p, hs, hp, hrebuilt⟩

end Heap

/-- Elements with something to list and elements with nothing. -/
theorem forall₂_filter_flatMap {α β γ : Type} {R : β → γ → Prop} (p : α → Bool) (f : α → β)
    (g : α → List γ) {xs : List α}
    (hmem : ∀ x ∈ xs, p x = true → ∃ c, g x = [c] ∧ R (f x) c)
    (hnone : ∀ x ∈ xs, p x = false → g x = []) :
    List.Forall₂ R ((xs.filter p).map f) (xs.flatMap g) := by
  induction xs with
  | nil => exact .nil
  | cons x xs ih =>
    obtain ⟨hx, hmem⟩ := List.forall_mem_cons.1 hmem
    obtain ⟨hx', hnone⟩ := List.forall_mem_cons.1 hnone
    cases hp : p x with
    | false =>
      rw [List.filter_cons_of_neg (by rw [hp]; exact Bool.false_ne_true), List.flatMap_cons,
        hx' hp, List.nil_append]
      exact ih hmem hnone
    | true =>
      obtain ⟨c, hc, hR⟩ := hx hp
      rw [List.filter_cons_of_pos hp, List.flatMap_cons, hc]
      exact .cons hR (ih hmem hnone)

/-- No charge is refused for want of a level. -/
theorem Budget.charge_ne_recursion (b : Budget) (size limit depth : Nat) :
    b.charge size ≠ .error (.error (.resource (.recursion limit depth))) := by
  intro hcharge
  cases b with
  | untracked => cases hcharge
  | tracked limits usage =>
    simp only [charge] at hcharge
    split at hcharge
    · cases hcharge
    · split at hcharge
      · cases hcharge
      · split at hcharge <;> cases hcharge

namespace Copy

variable {h : Heap} {v x : Value} {s : Slot} {p : Payload} {n levels : Nat} {way : List Nat}
  {steps : List Step} {step : Step} {b : Budget} {e : RunError} {failure : Failure}

/-! ## Leaving a place -/

/-- A container is reported with its type and its number of entries, by which it is charged. -/
theorem exists_copyReport (hrebuilt : p.isRebuilt = true) (depth : Nat) :
    ∃ ty length, p.copyReport depth = [.copied ty length depth] ∧ p.typeRef = .builtin ty ∧
      p.length? = some length ∧ (Event.copied ty length depth).bytes = p.size := by
  cases p with
  | list | tuple | dict | set => exact ⟨_, _, rfl, rfl, rfl, rfl⟩
  | _ => cases hrebuilt

theorem finish_of_not_container (hx : h.isContainer x = false) : finish h levels x = pure () := by
  cases x with
  | ref s =>
    cases hp : h.find? s with
    | none => rw [finish, hp]; rfl
    | some p =>
      rw [Heap.isContainer_ref hp] at hx
      rw [finish_ref hp]
      cases p <;> first | rfl | cases hx
  | _ => rfl

/-! ## Entering a place -/

/-- What stops a copy is for free, and a level that is missing is reported. -/
theorem paid_check (b : Budget) (hx : h.Offends .deepCopy way x e) :
    (h.check .deepCopy (h.levelsLeft - way.length) x).paid b =
      (h.missingLevel (.error (.error e) : Except Failure Budget), .error (.error e)) := by
  rw [Heap.check, Heap.offence_eq_some_iff.2 hx]
  cases hx with
  | unsupported hp => rfl
  | tooDeep hp hrebuilt _ => exact congrArg (·, _) (if_pos rfl).symm

/-! ## Steps -/

/-- What a copy does at a step. -/
def visit (h : Heap) (step : Step) : Answer Unit :=
  Heap.visit (h.check .deepCopy) (finish h) h.levelsLeft step

/-- The containers that are left on some steps. -/
def completed (h : Heap) (steps : List Step) : List (List Nat) :=
  (steps.filter fun step => step.leaves && h.isContainer step.value).map Step.way

/-- What is reported on some steps. -/
def reports (h : Heap) (steps : List Step) : List Event :=
  steps.flatMap fun step => (visit h step).events

theorem forecast_eq_steps (h : Heap) (v : Value) :
    forecast h h.levelsLeft v = forM (h.steps .deepCopy h.levelsLeft v) (visit h) :=
  Heap.tour_eq_steps _ _ _ _

theorem mem_completed :
    way ∈ completed h steps ↔ ∃ x, ⟨true, way, x⟩ ∈ steps ∧ h.isContainer x = true := by
  simp only [completed, List.mem_map, List.mem_filter, Bool.and_eq_true]
  constructor
  · rintro ⟨⟨leaves, way, x⟩, ⟨hmem, rfl, hx⟩, rfl⟩
    exact ⟨x, hmem, hx⟩
  · rintro ⟨x, hmem, hx⟩
    exact ⟨_, ⟨hmem, rfl, hx⟩, rfl⟩

/-- Containers are completed in the order in which they are left. -/
theorem pairwise_completed
    (hsorted : steps.Pairwise fun step step' => step.moment < step'.moment) :
    (completed h steps).Pairwise LeftBefore := by
  rw [completed, List.pairwise_map, List.pairwise_filter]
  refine hsorted.imp fun {step step'} hlt hstep hstep' => ?_
  obtain ⟨leaves, way, x⟩ := step
  obtain ⟨leaves', way', x'⟩ := step'
  obtain ⟨rfl, -⟩ := Bool.and_eq_true_iff.1 hstep
  obtain ⟨rfl, -⟩ := Bool.and_eq_true_iff.1 hstep'
  exact (moment_lt_leaving_iff x x').1 hlt

/-- **The containers that are left are reported**, if each one was entered without an error. -/
theorem reported_of_steps
    (hfollow : ∀ step ∈ steps, h.follow .deepCopy step.way v = some step.value)
    (hok : ∀ step ∈ steps, (visit h step).result = .ok ())
    (henter : ∀ way x, ⟨true, way, x⟩ ∈ steps → ⟨false, way, x⟩ ∈ steps) :
    List.Forall₂ (h.ReportedAs v) (completed h steps) (reports h steps) := by
  refine forall₂_filter_flatMap _ _ _ ?_ ?_
  · rintro ⟨leaves, way, x⟩ hmem hx
    obtain ⟨rfl, hx⟩ := Bool.and_eq_true_iff.1 hx
    obtain ⟨s, p, rfl, hp, hrebuilt⟩ := Heap.isContainer_iff.1 hx
    obtain ⟨ty, length, hreport, htype, hlength, -⟩ :=
      exists_copyReport hrebuilt (h.budget.depthLimit - (h.levelsLeft - way.length) + 1)
    have hentered := Heap.offence_of_check (hok _ (henter _ _ hmem))
    rw [Heap.offence_ref hp (by rintro cls rfl; cases hrebuilt), hrebuilt] at hentered
    -- there was a level left, so the levels are counted without loss
    have hlevel : h.budget.depthLimit - (h.levelsLeft - way.length) + 1 =
        h.depth + (way.length + 1) := by
      have hpositive : h.levelsLeft - way.length ≠ 0 := by
        intro hzero
        rw [hzero] at hentered
        cases hentered
      rw [Heap.levelsLeft] at hpositive ⊢
      omega
    refine ⟨_, ?_, .copied (hfollow _ hmem) hp hrebuilt htype hlength⟩
    rw [visit, Heap.visit, if_pos rfl, finish_ref hp, hreport, hlevel]
  · rintro ⟨leaves, way, x⟩ hmem hx
    cases leaves with
    | false =>
      have hnone := Heap.offence_of_check (hok _ hmem)
      rw [visit, Heap.visit, if_neg Bool.false_ne_true, Heap.check_of_none hnone]
      rfl
    | true =>
      rw [visit, Heap.visit, if_pos rfl, finish_of_not_container hx]
      rfl

/-! ## The step that a copy ends with -/

/-- What offends is entered on a step, or something before it is, and not on a step that ended
well. -/
theorem exists_step_of_offence (hok : ∀ step ∈ steps, (visit h step).result = .ok ())
    (hoff : h.OffendsAt .deepCopy v way e) :
    ∃ way' x, ⟨false, way', x⟩ ∈ h.steps .deepCopy h.levelsLeft v ∧ ⟨false, way', x⟩ ∉ steps ∧
      way' ≤ way := by
  obtain ⟨way', x, e', hmem, hoff', hle⟩ := hoff.exists_walk
  refine ⟨way', x, Heap.mem_steps.2 (Heap.mem_walk.1 hmem), fun hstep => ?_, hle⟩
  have hnone := Heap.offence_of_check (hok _ hstep)
  rw [Heap.offence_eq_some_iff.2 hoff'] at hnone
  cases hnone

/-- A copy ends when it enters a place only where the place offends. -/
theorem exists_offence_of_enter (hx : h.follow .deepCopy way v = some x)
    (hstop : ((visit h ⟨false, way, x⟩).paid b).2 = .error failure) :
    ∃ e, failure = .error e ∧ h.OffendsAt .deepCopy v way e ∧
      ((visit h ⟨false, way, x⟩).paid b).1 =
        h.missingLevel (.error failure : Except Failure Budget) := by
  rw [visit, Heap.visit, if_neg Bool.false_ne_true] at hstop ⊢
  cases hoff : h.offence .deepCopy (h.levelsLeft - way.length) x with
  | none =>
    rw [Heap.check_of_none hoff] at hstop
    cases hstop
  | some e =>
    have hoff := Heap.offence_eq_some_iff.1 hoff
    rw [paid_check b hoff] at hstop ⊢
    cases hstop
    exact ⟨e, rfl, ⟨x, hx, hoff⟩, rfl⟩

/-- A copy ends when it leaves a place only where a container is refused. -/
theorem exists_charge_of_leave
    (hstop : ((visit h ⟨true, way, x⟩).paid b).2 = .error failure) :
    ∃ s p, x = .ref s ∧ h.find? s = some p ∧ p.isRebuilt = true ∧
      b.charge p.size = .error failure ∧ ((visit h ⟨true, way, x⟩).paid b).1 = [] := by
  rw [visit, Heap.visit, if_pos rfl] at hstop ⊢
  cases hx : h.isContainer x with
  | false =>
    rw [finish_of_not_container hx] at hstop
    cases hstop
  | true =>
    obtain ⟨s, p, rfl, hp, hrebuilt⟩ := Heap.isContainer_iff.1 hx
    obtain ⟨ty, length, hreport, -, -, hbytes⟩ :=
      exists_copyReport hrebuilt (h.budget.depthLimit - (h.levelsLeft - way.length) + 1)
    rw [finish_ref hp, hreport, Answer.paid] at hstop ⊢
    refine ⟨s, p, rfl, hp, hrebuilt, ?_⟩
    rw [← hbytes]
    cases hpay : b.pay (.copied ty length _) with
    | ok c =>
      rw [Budget.spend_cons_of_ok hpay] at hstop
      cases hstop
    | error failure' =>
      rw [Budget.spend_cons_of_error hpay] at hstop ⊢
      cases hstop
      exact ⟨hpay, rfl⟩

section Ends

variable {α : Type} {met after : List Step} {left : Budget}
  (hok : ∀ step ∈ met, (visit h step).result = .ok ())
include hok

theorem copyEnds_done {a : α} (hsteps : h.steps .deepCopy h.levelsLeft v = met) :
    h.CopyEnds v (completed h met) left (.ok a) := by
  subst hsteps
  refine .done fun way => mem_completed.trans ?_
  rw [Heap.containerAt_iff]
  refine exists_congr fun x => and_congr_left fun _ => Heap.mem_steps.trans ?_
  refine and_iff_right_of_imp fun hx => Heap.length_le_of_before hx fun way' e hoff => ?_
  obtain ⟨_, _, hmem, hnew, -⟩ := exists_step_of_offence hok hoff
  exact absurd hmem hnew

omit hok in
/-- The containers that are completed up to a step are those left at an earlier moment.  None of
these is so far down that the walk does not come there, if they are left before anything offends. -/
theorem mem_completed_iff (hsteps : h.steps .deepCopy h.levelsLeft v = met ++ step :: after)
    {before : List Nat → Prop}
    (hmoment : ∀ way x, Step.moment ⟨true, way, x⟩ < step.moment ↔ before way)
    (hfirst : ∀ way way' e, before way → h.OffendsAt .deepCopy v way' e → way < way')
    (way : List Nat) : way ∈ completed h met ↔ h.ContainerAt v way ∧ before way := by
  rw [mem_completed, Heap.containerAt_iff]
  simp only [Heap.mem_before_iff hsteps, Heap.mem_steps, hmoment]
  constructor
  · rintro ⟨x, ⟨⟨-, hx⟩, hbefore⟩, hcontainer⟩
    exact ⟨⟨x, hx, hcontainer⟩, hbefore⟩
  · rintro ⟨⟨x, hx, hcontainer⟩, hbefore⟩
    have hlength := Heap.length_le_of_before hx fun way' e hoff => hfirst way way' e hbefore hoff
    exact ⟨x, ⟨⟨hlength, hx⟩, hbefore⟩, hcontainer⟩

theorem copyEnds_stopped
    (hsteps : h.steps .deepCopy h.levelsLeft v = met ++ ⟨false, way, x⟩ :: after)
    (hoff : h.OffendsAt .deepCopy v way e) :
    h.CopyEnds v (completed h met) left (α := α) (.error (.error e)) := by
  have hfirst : h.FirstOffence .deepCopy v way e := by
    refine ⟨hoff, fun way' e' hoff' => ?_⟩
    obtain ⟨way'', y, hmem, hnew, hle⟩ := exists_step_of_offence hok hoff'
    rcases (Heap.before_or_after hsteps hmem).resolve_left hnew with heq | hlt
    · cases heq
      exact hle
    · exact ((entering_lt_entering_iff x y).1 hlt).le.trans hle
  refine .stopped hfirst (mem_completed_iff hsteps (fun _ y => moment_lt_entering_iff y x) ?_)
  exact fun _ way' e' hpassed hoff' => hpassed.1.trans_le (hfirst.first way' e' hoff')

theorem copyEnds_refused
    (hsteps : h.steps .deepCopy h.levelsLeft v = met ++ ⟨true, way, .ref s⟩ :: after)
    (hs : h.follow .deepCopy way v = some (.ref s)) (hp : h.find? s = some p)
    (hrebuilt : p.isRebuilt = true) (hcharge : left.charge p.size = .error failure) :
    h.CopyEnds v (completed h met) left (α := α) (.error failure) := by
  have hlater (way' : List Nat) (e : RunError) (hoff : h.OffendsAt .deepCopy v way' e) :
      Passed way way' := by
    obtain ⟨way'', y, hmem, hnew, hle⟩ := exists_step_of_offence hok hoff
    rcases (Heap.before_or_after hsteps hmem).resolve_left hnew with heq | hlt
    · cases heq
    · exact ((moment_lt_entering_iff (.ref s) y).1 hlt).trans_le hle
  refine .refused hs hp hrebuilt hcharge hlater
    (mem_completed_iff hsteps (fun _ y => moment_lt_leaving_iff y (.ref s)) ?_)
  exact fun _ way' e hleft hoff => (hleft.trans_passed (hlater way' e hoff)).1

end Ends

/-- **How a copy ends is told by the step that it ends with.** -/
theorem forecast_ends (h : Heap) (v : Value) :
    ∃ finished reports left, finished.Pairwise LeftBefore ∧
      List.Forall₂ (h.ReportedAs v) finished reports ∧
      h.budget.spend reports = (reports, .ok left) ∧
      h.CopyEnds v finished left ((forecast h h.levelsLeft v).paid h.budget).2 ∧
      ((forecast h h.levelsLeft v).paid h.budget).1 =
        reports ++ h.missingLevel ((forecast h h.levelsLeft v).paid h.budget).2 := by
  have hsorted := h.pairwise_steps .deepCopy h.levelsLeft v
  rw [forecast_eq_steps]
  rcases Answer.paid_forM_cases (visit h) (h.steps .deepCopy h.levelsLeft v) h.budget with
    ⟨left, hspend, hok, hpaid⟩ |
      ⟨met, ⟨leaves, way, x⟩, after, left, failure, hsteps, hok, hspend, hstop, hpaid⟩
  · have hreported := reported_of_steps (fun step hstep => (Heap.mem_steps.1 hstep).2) hok
      fun way x hmem => Heap.entering_mem_steps hmem
    refine ⟨_, _, left, pairwise_completed hsorted, hreported, hspend, ?_⟩
    rw [hpaid]
    exact ⟨copyEnds_done hok rfl, (List.append_nil _).symm⟩
  · have hbefore (t : Step) : t ∈ met ↔ t ∈ h.steps .deepCopy h.levelsLeft v ∧
        t.moment < Step.moment ⟨leaves, way, x⟩ := Heap.mem_before_iff hsteps
    have hreported := reported_of_steps
      (fun step hstep => (Heap.mem_steps.1 ((hbefore step).1 hstep).1).2) hok fun way x hmem => by
        obtain ⟨hmem, hlt⟩ := (hbefore _).1 hmem
        exact (hbefore _).2 ⟨Heap.entering_mem_steps hmem,
          (entering_lt_leaving List.prefix_rfl x x).trans hlt⟩
    have hx : h.follow .deepCopy way v = some x :=
      (Heap.mem_steps.1 (hsteps ▸ List.mem_append_right met List.mem_cons_self)).2
    rw [hsteps] at hsorted
    refine ⟨_, _, left, pairwise_completed (List.pairwise_append.1 hsorted).1, hreported, hspend,
      ?_⟩
    rw [hpaid]
    cases leaves with
    | false =>
      obtain ⟨e, rfl, hoff, hevents⟩ := exists_offence_of_enter hx hstop
      refine ⟨copyEnds_stopped hok hsteps hoff, ?_⟩
      rw [hevents]
      rfl
    | true =>
      obtain ⟨s, p, rfl, hp, hrebuilt, hcharge, hevents⟩ := exists_charge_of_leave hstop
      refine ⟨copyEnds_refused hok hsteps hx hp hrebuilt hcharge, ?_⟩
      rw [hevents, Heap.missingLevel, if_neg]
      · rfl
      · rintro ⟨⟩
        exact left.charge_ne_recursion _ _ _ hcharge

end Copy

theorem Engine.tracer_copy {e : Engine} {kept : Array Event}
    (htracer : e.tracer = .recording none kept) (v : Value) :
    (e.copy v).2.tracer = .recording none (kept ++ (deepCopy v e.heap).events.toArray) := by
  rw [← Tracer.observeAll_recording_none, ← htracer]
  rfl

/-- **A copy reports the containers that it completed, in the order in which they are left.**  A
tracer that keeps everything has one report more for each of them, with the type of the container,
its number of entries, and its level, counted on from those that are entered.  A copy that succeeds
has completed all lists, tuples, dicts and sets that it met through items of lists and tuples and
values of dicts, each as often as there are ways to it.  A copy that fails has completed those up to
the place that stopped it, and then reports a missing level if that is what it fails for. -/
theorem deepCopy_reports {budget : Budget} {e : Engine} {owned : Multiset Value}
    (he : Reachable budget ⟨e.heap, owned⟩) {kept : Array Event}
    (htracer : e.tracer = .recording none kept) {v : Value} (hv : e.heap.Names v) :
    ∃ finished reports left, finished.Pairwise LeftBefore ∧
      List.Forall₂ (e.heap.ReportedAs v) finished reports ∧
      e.heap.budget.spend reports = (reports, .ok left) ∧
      e.heap.CopyEnds v finished left (e.copy v).1 ∧
      (e.copy v).2.tracer =
        .recording none (kept ++ (reports ++ e.heap.missingLevel (e.copy v).1).toArray) := by
  have hextent : (deepCopy v e.heap).extent =
      (Copy.forecast e.heap e.heap.levelsLeft v).paid e.heap.budget :=
    (paid_deepCopy he.sound hv).1
  obtain ⟨finished, reports, left, hsorted, hreported, hspend, hends, htold⟩ :=
    Copy.forecast_ends e.heap v
  rw [← hextent] at hends htold
  refine ⟨finished, reports, left, hsorted, hreported, hspend, hends.of_map, ?_⟩
  have htold : (deepCopy v e.heap).events = reports ++ e.heap.missingLevel (e.copy v).1 :=
    htold.trans (congrArg _ (Heap.missingLevel_map _ _ _))
  rw [Engine.tracer_copy htracer, htold]

/-- Two levels, and a list of a list with a number and of a list of lists.  The list with the number
is copied and reported, and the lists in the other one are refused. -/
theorem deepCopy_reports_tooDeep :
    ∃ (e : Engine) (owned : Multiset Value),
      Reachable (.under { depth := some 2 }) ⟨e.heap, owned⟩ ∧ e.tracer = .recording none #[] ∧
      e.heap.Names (.ref 3) ∧
      e.heap.find? 3 = some (.list [.ref 0, .ref 2]) ∧ e.heap.find? 0 = some (.list [.int 1]) ∧
      e.heap.find? 2 = some (.list [.ref 1]) ∧ e.heap.find? 1 = some (.list [.int 2]) ∧
      (e.copy (.ref 3)).2.tracer = .recording none #[.copied .list 1 2, .tooDeep 2] ∧
      ∃ way left, e.heap.ReportedAs (.ref 3) way (.copied .list 1 2) ∧
        e.heap.CopyEnds (.ref 3) [way] left (e.copy (.ref 3)).1 := by
  let limits : Limits := { depth := some 2 }
  let o : Object := .list [.list [.int 1], .list [.list [.int 2]]]
  let c : Custody := Custody.after ⟨Heap.empty (.under limits), 0⟩ (.build o) [.ref 3]
  have hc : Reachable (.under limits) c :=
    .result [.ref 3] .start (Request.permitted_build o _) (by decide +kernel)
  have hnames : c.heap.Names (.ref 3) := hc.names (by decide)
  have h3 : c.heap.find? 3 = some (.list [.ref 0, .ref 2]) := by decide +kernel
  have h2 : c.heap.find? 2 = some (.list [.ref 1]) := by decide +kernel
  have h1 : c.heap.find? 1 = some (.list [.int 2]) := by decide +kernel
  have h0 : c.heap.find? 0 = some (.list [.int 1]) := by decide +kernel
  have hlimit : c.heap.budget.depthLimit = 2 := by decide +kernel
  have hevents : (deepCopy (.ref 3) c.heap).events = [.copied .list 1 2, .tooDeep 2] := by
    decide +kernel
  have hresult : (deepCopy (.ref 3) c.heap).result =
      .error (.error (.resource (.recursion 2 3))) := by
    decide +kernel
  clear_value c
  let e : Engine := ⟨c.heap, .strict, .recording none #[]⟩
  have hshown : (e.copy (.ref 3)).2.tracer = .recording none #[.copied .list 1 2, .tooDeep 2] := by
    rw [Engine.tracer_copy rfl, hevents]
    rfl
  have hrefused : (e.copy (.ref 3)).1 = .error (.error (.resource (.recursion 2 3))) := hresult
  obtain ⟨finished, reports, left, -, hreported, -, hends, htracer⟩ :=
    deepCopy_reports (e := e) hc rfl hnames
  have hmissing : e.heap.missingLevel (e.copy (.ref 3)).1 = [.tooDeep 2] := by
    have hlimit : e.heap.budget.depthLimit = 2 := hlimit
    rw [hrefused, Heap.missingLevel, Budget.noLevelLeft, hlimit]
    rfl
  have hreports : reports = [.copied .list 1 2] := by
    rw [hshown, hmissing, Array.empty_append] at htracer
    have hlists := congrArg Array.toList (Tracer.recording.inj htracer).2
    have hboth : [Event.copied .list 1 2] ++ [.tooDeep 2] = reports ++ [.tooDeep 2] := hlists
    exact (List.append_cancel_right hboth).symm
  subst hreports
  obtain ⟨way, rest, hway, hrest, rfl⟩ := List.forall₂_cons_right_iff.1 hreported
  rw [List.forall₂_nil_right_iff] at hrest
  subst hrest
  exact ⟨e, c.owned, hc, rfl, hnames, h3, h0, h2, h1, hshown, way, left, hway, hends⟩

end ValueHeap
