import ValueHeap.Proofs.Heap.Walk

/-!
# Where an operation is stopped on its walk

Two things stop a structural operation on its walk through a value: an instance, which it does not
handle, and a container for which no level is left.  It ends with the error of the first of them,
and what it reports on the way is what it would have reported without, up to there.

A tour is such a walk with something to do at every place, before its parts and behind them.  A
place is looked at with the levels that are left there.  So below a container that is refused no
place is met, and a tour ends also where the walk has no end.

## What is here

* `Heap.Offends` — what stops an operation, and `Heap.FirstOffence`, the first place with that.
* `Heap.offence` — the same by the levels that are left, and `Heap.check`, which ends with it.
* `Answer.forM_of_ok`, `Answer.forM_of_error` and `Answer.exists_first_error` — visits one after the
  other.
* `Heap.tour` and `Heap.tour_eq_forM` — **a tour visits the places of the walk one after the
  other**.
* `Heap.tour_cases` — it goes to the end if nothing offends, and else to the first offence.
* `Heap.exists_offence_of_infinite` — something offends on every walk without end.
-/

set_option autoImplicit false

namespace ValueHeap

/-! ## Visits one after the other -/

namespace Answer

variable {α β : Type} {f g : α → Answer Unit} {xs ys : List α} {x : α} {e : Halt}

theorem bind_of_ok {y : Answer Unit} (hx : y.result = .ok ()) (f : Unit → Answer β) :
    y >>= f = ⟨y.events ++ (f ()).events, (f ()).result⟩ := by
  obtain ⟨es, r⟩ := y
  cases hx
  rfl

theorem bind_of_error {y : Answer α} {f : α → Answer β} (hx : y.result = .error e) :
    y >>= f = ⟨y.events, .error e⟩ := by
  obtain ⟨es, r⟩ := y
  cases hx
  rfl

theorem forM_of_ok (hxs : ∀ x ∈ xs, (f x).result = .ok ()) :
    forM xs f = ⟨xs.flatMap fun x => (f x).events, .ok ()⟩ := by
  induction xs with
  | nil => rfl
  | cons x xs ih =>
    obtain ⟨hx, hxs⟩ := List.forall_mem_cons.1 hxs
    rw [List.forM_cons, bind_of_ok hx, ih hxs, List.flatMap_cons]

/-- Nothing is visited behind the first error. -/
theorem forM_of_error (hxs : ∀ y ∈ xs, (f y).result = .ok ()) (hx : (f x).result = .error e) :
    forM (xs ++ x :: ys) f =
      ⟨(xs.flatMap fun y => (f y).events) ++ (f x).events, .error e⟩ := by
  rw [List.forM_append, bind_of_ok (by rw [forM_of_ok hxs]), forM_of_ok hxs, List.forM_cons,
    bind_of_error hx]

/-- All visits end well, or there is a first one that does not. -/
theorem exists_first_error (f : α → Answer Unit) (xs : List α) :
    (∀ x ∈ xs, (f x).result = .ok ()) ∨
      ∃ ys x zs e, xs = ys ++ x :: zs ∧ (∀ y ∈ ys, (f y).result = .ok ()) ∧
        (f x).result = .error e := by
  induction xs with
  | nil => exact Or.inl nofun
  | cons x xs ih =>
    cases hx : (f x).result with
    | error e => exact Or.inr ⟨[], x, xs, e, rfl, nofun, hx⟩
    | ok _ =>
      rcases ih with hxs | ⟨ys, y, zs, e, rfl, hys, hy⟩
      · exact Or.inl (List.forall_mem_cons.2 ⟨hx, hxs⟩)
      · exact Or.inr ⟨x :: ys, y, zs, e, rfl, List.forall_mem_cons.2 ⟨hx, hys⟩, hy⟩

theorem forM_flatMap {γ : Type} (ts : List γ) (xs : γ → List α) (f : α → Answer Unit) :
    forM (ts.flatMap xs) f = forM ts fun t => forM (xs t) f := by
  induction ts with
  | nil => rfl
  | cons t ts ih => rw [List.flatMap_cons, List.forM_append, List.forM_cons, ih]

theorem forM_zipIdx (xs : List α) (f : α → Answer Unit) :
    forM xs f = forM xs.zipIdx fun part => f part.1 := by
  conv => lhs; rw [← List.zipIdx_map_fst 0 xs]
  exact List.forM_map

/-- How a row of visits ends is told by how the visits end. -/
theorem result_forM_congr (hfg : ∀ x, (f x).result = (g x).result) (xs : List α) :
    (forM xs f).result = (forM xs g).result := by
  induction xs with
  | nil => rfl
  | cons x xs ih => rw [List.forM_cons, List.forM_cons, result_bind, result_bind, hfg, ih]

end Answer

namespace Heap

variable {h : Heap} {op : StructuralOperation} {s : Slot} {p : Payload} {v x : Value} {n : Nat}
  {way way' : List Nat} {e e' : RunError}

/-! ## What stops an operation -/

/-- What stops an operation at the end of a way: an instance, with the name of its class, or a
container on a level beyond the limit.  The value itself is on the level behind those entered. -/
inductive Offends (h : Heap) (op : StructuralOperation) (way : List Nat) : Value → RunError → Prop
  | unsupported {s cls : Slot} (hp : h.find? s = some (.userInstance cls)) :
      Offends h op way (.ref s) (.raised (.unsupported op (h.className cls)))
  | tooDeep {s : Slot} {p : Payload} (hp : h.find? s = some p) (hrebuilt : p.isRebuilt = true)
      (hlevel : h.budget.depthLimit < h.depth + (way.length + 1)) :
      Offends h op way (.ref s)
        (.resource (.recursion h.budget.depthLimit (h.budget.depthLimit + 1)))

/-- What stops an operation on a way through a value. -/
def OffendsAt (h : Heap) (op : StructuralOperation) (v : Value) (way : List Nat) (e : RunError) :
    Prop :=
  ∃ x, h.follow op way v = some x ∧ h.Offends op way x e

/-- The first place that stops an operation on its walk through a value. -/
structure FirstOffence (h : Heap) (op : StructuralOperation) (v : Value) (way : List Nat)
    (e : RunError) : Prop where
  offends : h.OffendsAt op v way e
  first : ∀ way' e', h.OffendsAt op v way' e' → way ≤ way'

theorem Offends.unique (hx : h.Offends op way x e) (hx' : h.Offends op way x e') : e = e' := by
  cases hx with
  | unsupported hp =>
    cases hx' with
    | unsupported hp' =>
      obtain rfl := Payload.userInstance.inj (Option.some.inj (hp.symm.trans hp'))
      rfl
    | tooDeep hp' hrebuilt _ =>
      rw [← Option.some.inj (hp.symm.trans hp')] at hrebuilt
      cases hrebuilt
  | tooDeep hp hrebuilt _ =>
    cases hx' with
    | unsupported hp' =>
      rw [Option.some.inj (hp.symm.trans hp')] at hrebuilt
      cases hrebuilt
    | tooDeep _ _ _ => rfl

/-- There is one first offence at most. -/
theorem FirstOffence.unique (hv : h.FirstOffence op v way e) (hv' : h.FirstOffence op v way' e') :
    way = way' ∧ e = e' := by
  obtain rfl := le_antisymm (hv.first _ _ hv'.offends) (hv'.first _ _ hv.offends)
  obtain ⟨x, hx, hoff⟩ := hv.offends
  obtain ⟨x', hx', hoff'⟩ := hv'.offends
  obtain rfl := Option.some.inj (hx.symm.trans hx')
  exact ⟨rfl, hoff.unique hoff'⟩

/-- The class of an instance has the name that it is known by. -/
theorem nameOfType_instance {cls : Slot} (hfits : ∀ s p, h.find? s = some p → h.Fits p)
    (hp : h.find? s = some (.userInstance cls)) :
    h.nameOfType (.userClass cls) = .ok (h.className cls) := by
  have hgood : h.GoodType (.userClass cls) := by
    rintro t ⟨⟩
    exact (hfits s _ hp).classes cls List.mem_cons_self
  obtain ⟨name, hname⟩ := exists_nameOfType hgood
  rw [hname, nameOfType_eq_className hname]

/-- What stops an operation at a value with so many levels left. -/
def offence (h : Heap) (op : StructuralOperation) (levels : Nat) : Value → Option RunError
  | .ref s =>
    match h.find? s with
    | some (.userInstance cls) => some (.raised (.unsupported op (h.className cls)))
    | some p =>
      if p.isRebuilt && levels == 0 then some (.resource h.budget.noLevelLeft) else none
    | none => none
  | _ => none

/-- Contents other than an instance stop an operation if they are a container without a level. -/
theorem offence_ref (hp : h.find? s = some p) (hinstance : ∀ cls, p ≠ .userInstance cls) :
    h.offence op n (.ref s) =
      if p.isRebuilt && n == 0 then some (.resource h.budget.noLevelLeft) else none := by
  rw [offence, hp]
  cases p with
  | userInstance cls => exact absurd rfl (hinstance cls)
  | _ => rfl

theorem offence_eq_some_iff :
    h.offence op (h.levelsLeft - way.length) x = some e ↔ h.Offends op way x e := by
  have hlevel : h.levelsLeft - way.length = 0 ↔
      h.budget.depthLimit < h.depth + (way.length + 1) := by
    rw [levelsLeft]
    omega
  constructor
  · intro he
    cases x with
    | ref s =>
      rw [offence] at he
      split at he
      · next cls hp =>
        cases he
        exact .unsupported hp
      · next p _ hp =>
        split at he
        · next hc =>
          rw [Bool.and_eq_true, beq_iff_eq] at hc
          cases he
          exact .tooDeep hp hc.1 (hlevel.1 hc.2)
        · cases he
      · cases he
    | _ => cases he
  · rintro (hp | ⟨hp, hrebuilt, hdeep⟩)
    · rw [offence, hp]
    · rw [offence_ref hp (by rintro cls rfl; cases hrebuilt), hrebuilt, hlevel.2 hdeep]
      rfl

/-- Ends with what stops an operation at a value, if anything does.  A level that is missing is
reported before. -/
def check (h : Heap) (op : StructuralOperation) (levels : Nat) (v : Value) : Answer Unit :=
  match h.offence op levels v with
  | none => pure ()
  | some (.raised c) => Answer.raise c
  | some (.resource e) => Answer.refuse h.budget.depthLimit (.resource e)

theorem check_of_none (hv : h.offence op n v = none) : h.check op n v = pure () := by
  rw [check, hv]

theorem result_check_of_some (hv : h.offence op n v = some e) :
    (h.check op n v).result = .error (.error e) := by
  rw [check, hv]
  cases e <;> rfl

theorem offence_of_check (hv : (h.check op n v).result = .ok ()) : h.offence op n v = none := by
  refine Option.eq_none_iff_forall_ne_some.2 fun e he => ?_
  rw [result_check_of_some he] at hv
  cases hv

theorem check_immediate (hv : v.slot? = none) : h.check op n v = pure () := by
  cases v with
  | ref s => cases hv
  | _ => rfl

theorem check_leaf (hp : h.find? s = some p) (hrebuilt : p.isRebuilt = false)
    (hinstance : ∀ cls, p ≠ .userInstance cls) : h.check op n (.ref s) = pure () := by
  refine check_of_none ?_
  rw [offence_ref hp hinstance, hrebuilt]
  rfl

theorem check_instance {cls : Slot} (hp : h.find? s = some (.userInstance cls)) :
    h.check op n (.ref s) = Answer.raise (.unsupported op (h.className cls)) := by
  rw [check, offence, hp]

theorem check_refused (hp : h.find? s = some p) (hrebuilt : p.isRebuilt = true) :
    h.check op 0 (.ref s) =
      Answer.refuse h.budget.depthLimit (.resource h.budget.noLevelLeft) := by
  have hoffence : h.offence op 0 (.ref s) = some (.resource h.budget.noLevelLeft) := by
    rw [offence_ref hp (by rintro cls rfl; cases hrebuilt), hrebuilt]
    rfl
  rw [check, hoffence]

theorem check_entered (hp : h.find? s = some p) (hrebuilt : p.isRebuilt = true) :
    h.check op (n + 1) (.ref s) = pure () := by
  refine check_of_none ?_
  rw [offence_ref hp (by rintro cls rfl; cases hrebuilt), if_neg (by simp)]

/-! ## Tours -/

/-- The walk through a value, with something to do at every place before its parts and behind
them, while so many levels are left. -/
def tour (h : Heap) (op : StructuralOperation) (enter leave : Nat → Value → Answer Unit) :
    Nat → Value → Answer Unit
  | 0, v => do
    enter 0 v
    leave 0 v
  | n + 1, v => do
    enter (n + 1) v
    forM (h.next op v) (h.tour op enter leave n)
    leave (n + 1) v

variable {enter leave : Nat → Value → Answer Unit}

theorem tour_leaf (hv : h.next op v = []) :
    h.tour op enter leave n v = enter n v >>= fun _ => leave n v := by
  cases n with
  | zero => rfl
  | succ n => rw [tour, hv]; rfl

/-- What is done behind the parts does not stop a tour if it always ends well. -/
theorem result_tour (hleave : ∀ n v, (leave n v).result = .ok ()) (n : Nat) (v : Value) :
    (h.tour op enter leave n v).result =
      (h.tour op enter (fun _ _ => pure ()) n v).result := by
  induction n generalizing v with
  | zero =>
    rw [tour, tour, Answer.result_bind, Answer.result_bind]
    simp only [hleave, Answer.result_pure]
  | succ n ih =>
    rw [tour, tour, Answer.result_bind, Answer.result_bind]
    simp only [Answer.result_bind, Answer.result_forM_congr ih, hleave, Answer.result_pure]

/-- **A tour visits the places of the walk one after the other**, if there is nothing to do behind
the parts. -/
theorem tour_eq_forM (enter : Nat → Value → Answer Unit) (n : Nat) (v : Value) :
    h.tour op enter (fun _ _ => pure ()) n v =
      forM (h.walk op n v) fun place => enter (n - place.1.length) place.2 := by
  induction n generalizing v with
  | zero => rw [tour, walk, List.forM_cons]; rfl
  | succ n ih =>
    rw [tour, walk, List.forM_cons, Answer.forM_flatMap, Answer.forM_zipIdx]
    simp only [ih, List.forM_map, List.length_nil, List.length_cons, Nat.sub_zero,
      Nat.add_sub_add_right, bind_pure_unit]

/-- What offends is on the walk, or behind something on the walk that offends. -/
theorem OffendsAt.exists_walk (hv : h.OffendsAt op v way e) :
    ∃ way' x e', (way', x) ∈ h.walk op h.levelsLeft v ∧ h.Offends op way' x e' ∧ way' ≤ way := by
  obtain ⟨x, hx, hoff⟩ := hv
  rcases Nat.lt_or_ge h.levelsLeft way.length with hlong | hshort
  · obtain ⟨s, p, hs, hp, hrebuilt⟩ := exists_container_of_follow hx hlong
    have hlength : (way.take h.levelsLeft).length = h.levelsLeft :=
      List.length_take_of_le hlong.le
    refine ⟨_, _, _, mem_walk.2 ⟨hlength.le, hs⟩, .tooDeep hp hrebuilt ?_, take_le _ way⟩
    rw [hlength, levelsLeft]
    omega
  · exact ⟨way, x, e, mem_walk.2 ⟨hshort, hx⟩, hoff, le_rfl⟩

/-- The walk up to the first offence, if there is one. -/
theorem firstOffence_of_walk {before after : List (List Nat × Value)}
    (hwalk : h.walk op h.levelsLeft v = before ++ (way, x) :: after)
    (hbefore : ∀ place ∈ before, h.offence op (h.levelsLeft - place.1.length) place.2 = none)
    (hx : h.offence op (h.levelsLeft - way.length) x = some e) : h.FirstOffence op v way e := by
  have hmem : (way, x) ∈ h.walk op h.levelsLeft v := by simp [hwalk]
  refine ⟨⟨x, (mem_walk.1 hmem).2, offence_eq_some_iff.1 hx⟩, fun way' e' hoff => ?_⟩
  obtain ⟨way₁, x₁, e₁, hmem₁, hoff₁, hle⟩ := hoff.exists_walk
  refine le_trans ?_ hle
  have hsorted := hwalk ▸ h.pairwise_walk op h.levelsLeft v
  rw [hwalk, List.mem_append, List.mem_cons] at hmem₁
  rcases hmem₁ with hmem₁ | heq | hmem₁
  · have hnone := hbefore _ hmem₁
    rw [offence_eq_some_iff.2 hoff₁] at hnone
    cases hnone
  · obtain ⟨rfl, -⟩ := Prod.mk.inj heq
    exact le_rfl
  · exact ((List.pairwise_cons.1 (List.pairwise_append.1 hsorted).2.1).1 _ hmem₁).le

/-- What comes before everything that offends is not so far down that the walk does not come
there. -/
theorem length_le_of_before (hx : h.follow op way v = some x)
    (hbefore : ∀ way' e, h.OffendsAt op v way' e → way < way') : way.length ≤ h.levelsLeft := by
  refine Nat.le_of_not_lt fun hlong => ?_
  obtain ⟨s, p, hs, hp, hrebuilt⟩ := exists_container_of_follow hx hlong
  refine absurd (hbefore _ _ ⟨_, hs, .tooDeep hp hrebuilt ?_⟩) (not_lt.2 (take_le _ way))
  rw [List.length_take_of_le hlong.le, levelsLeft]
  omega

/-- **A tour goes to the end if nothing offends, and else to the first offence**, when its visits
end as the checks do.  The places that it meets before are those before everything that offends. -/
theorem tour_cases (henter : ∀ n v, (enter n v).result = (h.check op n v).result) (v : Value) :
    ∃ met : List (List Nat × Value),
      met.Pairwise (fun place place' => place.1 < place'.1) ∧
      (∀ way x, (way, x) ∈ met ↔ h.follow op way v = some x ∧
        ∀ way' e, h.OffendsAt op v way' e → way < way') ∧
      (∀ place ∈ met, (enter (h.levelsLeft - place.1.length) place.2).result = .ok ()) ∧
      ((∀ way e, ¬h.OffendsAt op v way e) ∧
          h.tour op enter (fun _ _ => pure ()) h.levelsLeft v =
            ⟨met.flatMap fun place => (enter (h.levelsLeft - place.1.length) place.2).events,
              .ok ()⟩ ∨
        ∃ way x e, h.FirstOffence op v way e ∧ h.Offends op way x e ∧
          h.tour op enter (fun _ _ => pure ()) h.levelsLeft v =
            ⟨(met.flatMap fun place => (enter (h.levelsLeft - place.1.length) place.2).events) ++
              (enter (h.levelsLeft - way.length) x).events, .error (.error e)⟩) := by
  have hnone {n : Nat} {v : Value} (hv : (enter n v).result = .ok ()) :
      h.offence op n v = none :=
    offence_of_check ((henter n v).symm.trans hv)
  have hsorted := h.pairwise_walk op h.levelsLeft v
  rw [tour_eq_forM]
  rcases Answer.exists_first_error
    (fun place => enter (h.levelsLeft - place.1.length) place.2) (h.walk op h.levelsLeft v) with
    hall | ⟨before, ⟨way, x⟩, after, halt, hwalk, hbefore, hx⟩
  · have hclear (way : List Nat) (e : RunError) : ¬h.OffendsAt op v way e := fun hoff => by
      obtain ⟨way', x, e', hmem, hoff, -⟩ := hoff.exists_walk
      have hoffence := hnone (hall _ hmem)
      rw [offence_eq_some_iff.2 hoff] at hoffence
      cases hoffence
    refine ⟨_, hsorted, fun way x => ?_, hall, Or.inl ⟨hclear, Answer.forM_of_ok hall⟩⟩
    refine mem_walk.trans ⟨fun hmem => ⟨hmem.2, fun way' e hoff => absurd hoff (hclear way' e)⟩,
      fun hmem => ⟨length_le_of_before hmem.1 hmem.2, hmem.1⟩⟩
  · rw [hwalk] at hsorted
    obtain ⟨hbefores, hafters, hlt⟩ := List.pairwise_append.1 hsorted
    obtain ⟨e, he⟩ : ∃ e, h.offence op (h.levelsLeft - way.length) x = some e := by
      refine Option.ne_none_iff_exists'.1 fun he => ?_
      rw [henter, check_of_none he] at hx
      cases hx
    have hfirst := firstOffence_of_walk hwalk (fun place hplace => hnone (hbefore place hplace)) he
    have hhalt : halt = .error e := by
      rw [henter, result_check_of_some he] at hx
      exact (Except.error.inj hx).symm
    refine ⟨before, hbefores, fun way' x' => ⟨fun hmem => ⟨?_, fun way'' e' hoff => ?_⟩, ?_⟩,
      hbefore, Or.inr ⟨way, x, e, hfirst, offence_eq_some_iff.1 he, ?_⟩⟩
    · exact (mem_walk.1 (hwalk ▸ List.mem_append_left _ hmem)).2
    · exact lt_of_lt_of_le (hlt _ hmem _ List.mem_cons_self) (hfirst.first _ _ hoff)
    · rintro ⟨hx', hlt'⟩
      have hlt' := hlt' _ _ hfirst.offends
      have hmem : (way', x') ∈ h.walk op h.levelsLeft v :=
        mem_walk.2 ⟨length_le_of_before hx' fun way'' e' hoff =>
          lt_of_lt_of_le hlt' (hfirst.first _ _ hoff), hx'⟩
      rw [hwalk, List.mem_append, List.mem_cons] at hmem
      rcases hmem with hmem | heq | hmem
      · exact hmem
      · obtain ⟨rfl, -⟩ := Prod.mk.inj heq
        exact absurd hlt' (lt_irrefl _)
      · exact absurd (hlt'.trans ((List.pairwise_cons.1 hafters).1 _ hmem)) (lt_irrefl _)
    · rw [hwalk, ← hhalt]
      exact Answer.forM_of_error hbefore hx

/-- **How a tour ends is told by what offends on the walk.** -/
theorem result_tour_iff (henter : ∀ n v, (enter n v).result = (h.check op n v).result)
    (hleave : ∀ n v, (leave n v).result = .ok ()) (v : Value) :
    ((h.tour op enter leave h.levelsLeft v).result = .ok () ↔ ∀ way e, ¬h.OffendsAt op v way e) ∧
      ∀ e, (h.tour op enter leave h.levelsLeft v).result = .error (.error e) ↔
        ∃ way, h.FirstOffence op v way e := by
  rw [result_tour hleave]
  obtain ⟨met, -, -, -, ⟨hclear, heq⟩ | ⟨way, x, e, hfirst, -, heq⟩⟩ := tour_cases henter v
  · rw [heq]
    refine ⟨iff_of_true rfl hclear, fun e => iff_of_false nofun ?_⟩
    rintro ⟨way, hfirst⟩
    exact hclear way e hfirst.offends
  · rw [heq]
    refine ⟨iff_of_false nofun fun hclear => hclear way e hfirst.offends, fun e' => ⟨?_, ?_⟩⟩
    · rintro ⟨⟩
      exact ⟨way, hfirst⟩
    · rintro ⟨way', hfirst'⟩
      rw [(hfirst.unique hfirst').2]

/-- **Something offends on a walk without end**: a container on a level beyond the limit. -/
theorem exists_offence_of_infinite (hv : (h.ways op v).Infinite) :
    ∃ way e, h.OffendsAt op v way e := by
  obtain ⟨way, x, hx, hlong⟩ := exists_long_way hv h.levelsLeft
  obtain ⟨s, p, hs, hp, hrebuilt⟩ := exists_container_of_follow hx hlong
  refine ⟨_, _, _, hs, .tooDeep hp hrebuilt ?_⟩
  rw [List.length_take_of_le hlong.le, levelsLeft]
  omega

end Heap

end ValueHeap
