import ValueHeap.Proofs.Copy.Forecast
import ValueHeap.Proofs.Counts
import ValueHeap.Proofs.Fingerprint.Forecast

/-!
# When a copy or a fingerprint succeeds

Nothing but an instance or a container on a level beyond the limit can stop a structural operation
on its walk through a value, wherever it stands and however the references run.  So an operation
succeeds exactly if the walk meets neither, and if it meets one it ends with the error of the first.
A walk without end always meets one, since it goes down through containers beyond any level.

## What is here

* `Outcome.Follows.first_offence` — an operation that is as a tour tells.
* `deepCopy_first_offence` — copies, where neither allocations nor memory are limited.
* `deepHash_first_offence` — fingerprints, with the integers that are ignored on the way.
-/

set_option autoImplicit false

namespace ValueHeap

/-- **An operation that is as a tour tells succeeds exactly if nothing offends**, and else it ends
with the first offence.  It never succeeds on a walk without end. -/
theorem Outcome.Follows.first_offence {α : Type} {P : α → Heap → Prop} {o : Outcome α} {h : Heap}
    {op : StructuralOperation} {enter leave : Nat → Value → Answer Unit} {v : Value}
    (ho : o.Follows P (h.tour op enter leave h.levelsLeft v))
    (henter : ∀ n v, (enter n v).result = (h.check op n v).result)
    (hleave : ∀ n v, (leave n v).result = .ok ()) :
    ((∃ a, o.result = .ok a) ↔ ∀ way e, ¬h.OffendsAt op v way e) ∧
      (∀ e, o.result = .error (.error e) ↔ ∃ way, h.FirstOffence op v way e) ∧
      (∀ f, o.result ≠ .error (.fault f)) ∧
      ((h.ways op v).Infinite → ∃ e, o.result = .error (.error e)) := by
  obtain ⟨hok, herror⟩ := Heap.result_tour_iff henter hleave v
  have hok := ho.exists_ok_iff.trans hok
  refine ⟨hok, fun e => ho.error_iff.trans (herror e), ho.ne_fault, fun hinfinite => ?_⟩
  obtain ⟨way, e, hoff⟩ := Heap.exists_offence_of_infinite hinfinite
  cases hr : o.result with
  | ok a => exact absurd hoff (hok.1 ⟨a, hr⟩ way e)
  | error failure =>
    cases failure with
    | error e => exact ⟨e, rfl⟩
    | fault f => exact absurd hr (ho.ne_fault f)

/-! ## Copies -/

/-- **A deep copy succeeds exactly if nothing offends on its walk, and else ends with the first
offence.**  Let neither allocations nor memory be limited, with room in a word for the containers
that are copied.  Then there is a copy if the walk through the value meets no instance, and no list,
tuple, dict or set on a level beyond the limit; the levels are counted on from those that are
entered.  If the walk meets one of these, the copy ends with the error of the first one and with no
other, and so it does whenever the walk has no end. -/
theorem deepCopy_first_offence {budget : Budget} {c : Custody} (hc : Reachable budget c) {v : Value}
    (hv : c.heap.Names v)
    (hroom : c.heap.budget.Affords (Copy.forecast c.heap c.heap.levelsLeft v).bytes) :
    ((∃ w, (deepCopy v c.heap).result = .ok w) ↔ ∀ way e, ¬c.heap.OffendsAt .deepCopy v way e) ∧
      (∀ e, (deepCopy v c.heap).result = .error (.error e) ↔
        ∃ way, c.heap.FirstOffence .deepCopy v way e) ∧
      (∀ f, (deepCopy v c.heap).result ≠ .error (.fault f)) ∧
      ((c.heap.ways .deepCopy v).Infinite →
        ∃ e, (deepCopy v c.heap).result = .error (.error e)) :=
  (foretold_deepCopy hc.sound hv 0 hroom).first_offence (fun _ _ => rfl)
    (Copy.result_finish c.heap)

/-- Four levels, of which one is entered, and a list that holds a list with a number and then
itself.  The list with the number is copied.  The copy of the other one is refused when it comes to
the list with the number for the third time. -/
theorem deepCopy_first_offence_circle :
    ∃ c : Custody, Reachable (.under { depth := some 4 }) c ∧ c.heap.depth = 1 ∧
      c.heap.find? 0 = some (.list [.int 1]) ∧ c.heap.find? 1 = some (.list [.ref 0, .ref 1]) ∧
      (∀ way e, ¬c.heap.OffendsAt .deepCopy (.ref 0) way e) ∧
      (deepCopy (.ref 1) c.heap).result = .error (.error (.resource (.recursion 4 5))) ∧
      (∃ way, c.heap.FirstOffence .deepCopy (.ref 1) way (.resource (.recursion 4 5))) ∧
      ¬∃ w, (deepCopy (.ref 1) c.heap).result = .ok w := by
  let limits : Limits := { depth := some 4 }
  let inner : Option Cell := some ⟨1, .list [.int 1]⟩
  have hlist : Reachable (.under limits)
      ⟨⟨#[inner, some ⟨1, .list [.ref 0]⟩], [], .tracked limits ⟨2, 160⟩, 0⟩, {.ref 1}⟩ :=
    Reachable.start.ask (.build (.list [.list [.int 1]])) [.ref 1] (by decide) (by decide)
      (fun _ hp => by cases hp) trivial rfl rfl (by decide)
  have hclone : Reachable (.under limits)
      ⟨⟨#[inner, some ⟨2, .list [.ref 0]⟩], [], .tracked limits ⟨2, 160⟩, 0⟩,
        {.ref 1, .ref 1}⟩ :=
    hlist.ask (.clone (.ref 1)) [.ref 1] (by decide) (by decide)
      (fun _ hp => by cases hp) trivial rfl rfl (by decide)
  have hpush : Reachable (.under limits)
      ⟨⟨#[inner, some ⟨2, .list [.ref 0, .ref 1]⟩], [], .tracked limits ⟨2, 160⟩, 0⟩, {.ref 1}⟩ :=
    hclone.ask (.push 1 (.ref 1)) [] (by decide) (by decide)
      (fun _ hp => by cases hp) ⟨_, rfl⟩ rfl rfl (by decide)
  let h : Heap := ⟨#[inner, some ⟨2, .list [.ref 0, .ref 1]⟩], [], .tracked limits ⟨2, 160⟩, 1⟩
  have henter : Reachable (.under limits) ⟨h, {.ref 1}⟩ :=
    hpush.ask .enter [] (by decide) (by decide)
      (fun _ hp => by cases hp) trivial rfl rfl (by decide)
  have hnames : h.Names (.ref 0) := by
    rintro _ ⟨⟩
    rfl
  have hinner := deepCopy_first_offence henter hnames ⟨rfl, rfl, by decide +kernel⟩
  have houter := deepCopy_first_offence henter (henter.names (v := .ref 1) (by decide))
    ⟨rfl, rfl, by decide +kernel⟩
  have hcopied : (deepCopy (.ref 0) h).result = .ok (.ref 2) := by decide +kernel
  have hrefused : (deepCopy (.ref 1) h).result = .error (.error (.resource (.recursion 4 5))) := by
    decide +kernel
  refine ⟨_, henter, rfl, rfl, rfl, hinner.1.1 ⟨_, hcopied⟩, hrefused,
    (houter.2.1 _).1 hrefused, ?_⟩
  rintro ⟨w, hw⟩
  cases hrefused.symm.trans hw

/-! ## Fingerprints -/

theorem flatMap_ite {α β : Type} (p : α → Prop) [DecidablePred p] (b : β) (xs : List α) :
    (xs.flatMap fun x => if p x then [b] else []) = (xs.filter (p ·)).map fun _ => b := by
  induction xs with
  | nil => rfl
  | cons x xs ih =>
    rw [List.flatMap_cons, ih, List.filter_cons]
    by_cases hx : p x <;> simp [hx]

namespace Fingerprint

variable {h : Heap} {v x : Value} {n : Nat} {way : List Nat} {e : RunError}

/-- What is reported at a place that does not stop a fingerprint. -/
theorem events_visit_of_ok (hv : (visit h n v).result = .ok ()) :
    (visit h n v).events = if h.Unwritable v then
      [.absorbed (.raised (.tooManyDigits (h.budget.digitLimit.getD 0)))] else [] := by
  have hcheck : h.check .deepHash n v = pure () := by
    cases hoff : h.offence .deepHash n v with
    | none => exact Heap.check_of_none hoff
    | some e =>
      rw [result_visit, Heap.result_check_of_some hoff] at hv
      cases hv
  rw [visit, hcheck]
  simp only [bind_pure_unit]
  split
  · next hx => rw [note_of_unwritable hx]
  · next hx => rw [note_of_writable hx, Answer.events_pure]

/-- What is reported where a fingerprint is stopped. -/
theorem events_visit_of_offends (hx : h.Offends .deepHash way x e) :
    (visit h (h.levelsLeft - way.length) x).events =
      if e = .resource h.budget.noLevelLeft then [.tooDeep h.budget.depthLimit] else [] := by
  have hoffence := Heap.offence_eq_some_iff.2 hx
  have hnote : note h x = pure () := by
    cases hx with
    | unsupported hp => exact note_ref hp nofun
    | tooDeep hp hrebuilt _ => exact note_ref hp (by rintro n rfl; cases hrebuilt)
  rw [visit, hnote, pure_bind, Heap.check, hoffence]
  cases hx with
  | unsupported hp => rfl
  | tooDeep hp hrebuilt _ => exact (if_pos rfl).symm

end Fingerprint

/-- **A fingerprint succeeds exactly if nothing offends on its walk, and else ends with the first
offence.**  The walk goes into lists, tuples, sets and dicts, into a key before the value under it.
An integer with more digits than the limit allows does not stop it: each one that is met before the
first offence is reported once as an error that was ignored, in the order of the walk, and nothing
else is reported but the level that is missing in the end, if it is one. -/
theorem deepHash_first_offence {budget : Budget} {c : Custody} (hc : Reachable budget c) {v : Value}
    (hv : c.heap.Names v) :
    ((∃ word, (deepHash v c.heap).result = .ok word) ↔
        ∀ way e, ¬c.heap.OffendsAt .deepHash v way e) ∧
      (∀ e, (deepHash v c.heap).result = .error (.error e) ↔
        ∃ way, c.heap.FirstOffence .deepHash v way e) ∧
      (∀ f, (deepHash v c.heap).result ≠ .error (.fault f)) ∧
      ((c.heap.ways .deepHash v).Infinite →
        ∃ e, (deepHash v c.heap).result = .error (.error e)) ∧
      ∃ ignored : List (List Nat), ignored.Pairwise (· < ·) ∧
        (∀ way, way ∈ ignored ↔
          (∃ x, c.heap.follow .deepHash way v = some x ∧ c.heap.Unwritable x) ∧
            ∀ way' e, c.heap.OffendsAt .deepHash v way' e → way < way') ∧
        (deepHash v c.heap).events =
          ignored.map (fun _ =>
            .absorbed (.raised (.tooManyDigits (c.heap.budget.digitLimit.getD 0)))) ++
          if (deepHash v c.heap).result = .error (.error (.resource c.heap.budget.noLevelLeft))
          then [.tooDeep c.heap.budget.depthLimit] else [] := by
  have hfollows := follows_deepHash hc.sound.coherent hv
  have hends := hfollows.first_offence (Fingerprint.result_visit c.heap) fun _ _ => rfl
  refine ⟨hends.1, hends.2.1, hends.2.2.1, hends.2.2.2, ?_⟩
  obtain ⟨met, hsorted, hmet, hok, hcases⟩ :=
    Heap.tour_cases (Fingerprint.result_visit c.heap) v
  refine ⟨(met.filter fun place => c.heap.Unwritable place.2).map Prod.fst, ?_, fun way => ?_, ?_⟩
  · exact List.pairwise_map.2 (hsorted.filter _)
  · simp only [List.mem_map, List.mem_filter, decide_eq_true_eq, Prod.exists, exists_and_right,
      exists_eq_right, hmet]
    constructor
    · rintro ⟨x, ⟨hx, hbefore⟩, hlong⟩
      exact ⟨⟨x, hx, hlong⟩, hbefore⟩
    · rintro ⟨⟨x, hx, hlong⟩, hbefore⟩
      exact ⟨x, ⟨hx, hbefore⟩, hlong⟩
  · rw [List.map_map, Function.comp_def]
    have hreports : (met.flatMap fun place =>
        (Fingerprint.visit c.heap (c.heap.levelsLeft - place.1.length) place.2).events) =
        (met.filter fun place => c.heap.Unwritable place.2).map fun _ =>
          .absorbed (.raised (.tooManyDigits (c.heap.budget.digitLimit.getD 0))) := by
      rw [← flatMap_ite]
      exact List.flatMap_congr fun place hplace =>
        Fingerprint.events_visit_of_ok (hok place hplace)
    rcases hcases with ⟨hclear, heq⟩ | ⟨way, x, e, hfirst, hx, heq⟩
    · obtain ⟨word, hword⟩ := hends.1.2 hclear
      rw [hfollows.1, Fingerprint.forecast, heq, hreports, hword,
        if_neg (by rintro ⟨⟩), List.append_nil]
    · have herror := (hends.2.1 e).2 ⟨way, hfirst⟩
      rw [hfollows.1, Fingerprint.forecast, heq, hreports, herror,
        Fingerprint.events_visit_of_offends hx]
      simp only [Except.error.injEq, Failure.error.injEq]

/-- Two levels and three digits, and a list of a number that is too long, of a list that holds an
empty list, and of another number that is too long.  The first number is ignored, the empty list is
refused, and the second number is not met. -/
theorem deepHash_first_offence_digits :
    ∃ c : Custody, Reachable (.under { depth := some 2, digits := some 3 }) c ∧
      c.heap.find? 2 = some (.list [.int 1000, .ref 1, .int 2000]) ∧
      c.heap.find? 1 = some (.list [.ref 0]) ∧ c.heap.find? 0 = some (.list []) ∧
      (∃ way, c.heap.FirstOffence .deepHash (.ref 2) way (.resource (.recursion 2 3))) ∧
      (deepHash (.ref 2) c.heap).events =
        [.absorbed (.raised (.tooManyDigits 3)), .tooDeep 2] ∧
      ∃ ignored : List (List Nat), ignored.length = 1 ∧ ∀ way, way ∈ ignored ↔
        (∃ x, c.heap.follow .deepHash way (.ref 2) = some x ∧ c.heap.Unwritable x) ∧
          ∀ way' e, c.heap.OffendsAt .deepHash (.ref 2) way' e → way < way' := by
  let limits : Limits := { depth := some 2, digits := some 3 }
  let o : Object := .list [.int 1000, .list [.list []], .int 2000]
  let c : Custody := Custody.after ⟨Heap.empty (.under limits), 0⟩ (.build o) [.ref 2]
  have hc : Reachable (.under limits) c :=
    .result [.ref 2] .start (Request.permitted_build o _) (by decide +kernel)
  have hrefused : (deepHash (.ref 2) c.heap).result =
      .error (.error (.resource (.recursion 2 3))) := by
    decide +kernel
  have hevents : (deepHash (.ref 2) c.heap).events =
      [.absorbed (.raised (.tooManyDigits 3)), .tooDeep 2] := by
    decide +kernel
  obtain ⟨-, herror, -, -, ignored, -, hignored, hreports⟩ :=
    deepHash_first_offence hc (hc.names (v := .ref 2) (by decide))
  refine ⟨c, hc, by decide +kernel, by decide +kernel, by decide +kernel, (herror _).1 hrefused,
    hevents, ignored, ?_, hignored⟩
  have hlength := congrArg List.length (hevents.symm.trans hreports)
  rw [hrefused, if_pos (by decide +kernel), List.length_append, List.length_map] at hlength
  exact (Nat.succ.inj hlength).symm

end ValueHeap
