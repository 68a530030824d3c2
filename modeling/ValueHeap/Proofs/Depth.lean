import ValueHeap.Engine
import ValueHeap.Proofs.Action
import ValueHeap.Proofs.Heap.Calls
import ValueHeap.Proofs.Watched

/-!
# The count of levels is balanced

However an operation ends, it leaves the count of levels as it found it, and on the way the count
stays between the level on which the operation began and the limit.  Nothing is asked of the heap
but that it is within the limit: slots may be missing, contents may refer to themselves, and the
accounts may say anything.

The operations under watch show it.  No alarm is rung in them, and they do the very same as the
operations, so that these enter and leave levels as the ones under watch do.

## What is here

* `Outcome.Balanced.bind` and its like — operations that are put together.
* `Action.InStep` — an operation that is balanced and does the same as another one from a level on.
* `Action.answer_consult` and `Action.answer_oneLevelDown` — what only looks at the heap looks alike
  from the level above.
* `Watched.inStep_compare`, `Watched.inStep_hash`, `Watched.inStep_copy` and
  `Watched.inStep_build` — the operations under watch.
* `depth_balanced` — the whole.
-/

set_option autoImplicit false

namespace ValueHeap

variable {α β : Type} {depth limit : Nat}

/-! ## Outcomes -/

namespace Outcome.Balanced

variable {h : Heap} {x : Action α}

/-- Whatever it has ended in, what has left the count alone is balanced. -/
theorem of_onLevel {o : Outcome α} (hle : depth ≤ limit) (ho : o.heap.OnLevel depth limit) :
    o.Balanced depth limit := by
  rcases o with ⟨(e | f) | a, k, es⟩
  · exact ho
  · exact ⟨Nat.le_of_eq ho.1.symm, ho.1.symm ▸ hle, ho.2⟩
  · exact ho

theorem onLevel {o : Outcome α} {a : α} (ho : o.Balanced depth limit) (ha : o.result = .ok a) :
    o.heap.OnLevel depth limit := by
  rw [Balanced, ha] at ho
  exact ho

/-- What only looks at the heap is balanced if a fault tells of no more levels than were left. -/
theorem consult {f : Heap → Nat → Answer α} (hh : h.OnLevel depth limit) (hle : depth ≤ limit)
    (hf : (f h h.levelsLeft).StopsWithin h.levelsLeft) :
    (Action.consult f h).Balanced depth limit := by
  rw [hh.levelsLeft_eq] at hf
  rw [Action.consult, hh.levelsLeft_eq]
  generalize f h (limit - depth) = answer at hf ⊢
  rcases answer with ⟨es, (e | ⟨f, levels⟩) | a⟩
  · exact hh
  · have hlevels : levels ≤ limit - depth := hf _ rfl
    refine ⟨?_, ?_, hh.2⟩ <;> simp only [hh.2] <;> omega
  · exact hh

theorem bind {f : α → Action β} (hx : (x h).Balanced depth limit)
    (hf : ∀ a k, k.OnLevel depth limit → (f a k).Balanced depth limit) :
    ((x >>= f) h).Balanced depth limit := by
  cases hr : (x h).result with
  | ok a =>
    rw [Action.bind_apply_ok hr]
    exact hf a _ (hx.onLevel hr)
  | error e =>
    rw [Action.bind_apply_error hr]
    rw [Balanced, hr] at hx
    cases e <;> exact hx

/-- Cleaning up behind an error leaves the count alone. -/
theorem onError {cleanup : Action Unit} (hx : (x h).Balanced depth limit)
    (hcleanup : ∀ k, k.OnLevel depth limit → (cleanup k).Balanced depth limit) :
    (Action.onError x cleanup h).Balanced depth limit := by
  rw [Action.onError]
  generalize x h = o at hx ⊢
  rcases o with ⟨(e | f) | a, k, es⟩
  · have hk := hcleanup k hx
    simp only
    generalize cleanup k = o at hk ⊢
    rcases o with ⟨(_ | _) | _, l, fs⟩ <;> exact hk
  · exact hx
  · exact hx

/-- The level that is entered is left. -/
theorem oneLevelDown (hx : (x { h with depth := h.depth + 1 }).Balanced (depth + 1) limit) :
    (Action.oneLevelDown x h).Balanced depth limit := by
  rw [Action.oneLevelDown]
  generalize x { h with depth := h.depth + 1 } = o at hx ⊢
  rcases o with ⟨(e | f) | a, k, es⟩
  · exact ⟨congrArg (· - 1) hx.1, hx.2⟩
  · exact ⟨Nat.le_of_succ_le hx.1, hx.2⟩
  · exact ⟨congrArg (· - 1) hx.1, hx.2⟩

end Outcome.Balanced

/-! ## Operations in step -/

namespace Action

/-- From the level on, the first operation is balanced and the second one does the same. -/
def InStep (depth limit : Nat) ⦃α : Type⦄ (x y : Action α) : Prop :=
  ∀ h : Heap, h.OnLevel depth limit → y h = x h ∧ (x h).Balanced depth limit

namespace InStep

variable {x y : Action α}

/-- An operation that leaves the count alone, whatever it ends in. -/
theorem refl (hle : depth ≤ limit)
    (hx : ∀ h : Heap, h.OnLevel depth limit → (x h).heap.OnLevel depth limit) :
    InStep depth limit x x :=
  fun h hh => ⟨rfl, .of_onLevel hle (hx h hh)⟩

theorem bind {f g : α → Action β} (hxy : InStep depth limit x y)
    (hfg : ∀ a, InStep depth limit (f a) (g a)) : InStep depth limit (x >>= f) (y >>= g) := by
  intro h hh
  obtain ⟨hy, hx⟩ := hxy h hh
  refine ⟨?_, hx.bind fun a k hk => (hfg a k hk).2⟩
  cases hr : (x h).result with
  | ok a =>
    rw [bind_apply_ok hr, bind_apply_ok (hy ▸ hr), hy, (hfg a _ (hx.onLevel hr)).1]
  | error e => rw [bind_apply_error hr, bind_apply_error (hy ▸ hr), hy]

theorem change {f : Heap → Except Fault α × Heap} (hle : depth ≤ limit)
    (hf : ∀ h : Heap, h.OnLevel depth limit → (f h).2.OnLevel depth limit) :
    InStep depth limit (change f) (change f) := by
  refine .refl hle fun h hh => ?_
  have hk := hf h hh
  rw [Action.change]
  generalize f h = o at hk ⊢
  rcases o with ⟨_ | _, k⟩ <;> exact hk

theorem release (hle : depth ≤ limit) (vs : List Value) :
    InStep depth limit (release vs) (release vs) :=
  .change hle fun _ hh => Heap.OnLevel.steady.release hh _

end InStep

/-- **Operations that are put together stay in step.** -/
theorem inStep_congruence (hle : depth ≤ limit) : Congruence (InStep depth limit) where
  pure _ := .refl hle fun _ hh => hh
  raise _ := .refl hle fun _ hh => hh
  report _ := .refl hle fun _ hh => hh
  look {_ f} _ := by
    refine .refl hle fun h hh => ?_
    rw [look]
    cases f h <;> exact hh
  depth := .refl hle fun _ hh => hh
  bind hxy hfg := hxy.bind hfg
  onError hxy vs h hh := by
    obtain ⟨hy, hx⟩ := hxy h hh
    refine ⟨?_, hx.onError fun k hk => (InStep.release hle vs k hk).2⟩
    rw [onError, onError, hy]
  retain v := by
    cases v with
    | ref s =>
      have hretain := InStep.change hle fun h (hh : h.OnLevel depth limit) =>
        Heap.OnLevel.steady.retain hh s
      exact hretain.bind fun _ => .refl hle fun _ hh => hh
    | _ => exact .refl hle fun _ hh => hh
  release vs := .release hle vs
  allocate p := by
    refine .refl hle fun h hh => ?_
    have hk := hh.allocate p
    rw [allocate]
    generalize h.allocate p = o at hk ⊢
    rcases o with ⟨_ | _, k⟩ <;> exact hk

end Action

/-! ## What only looks at the heap -/

section Answers

variable {h : Heap} {x y : Action α} {f g : Heap → Nat → Answer α}

theorem Action.answer_congr (hxy : y h = x h) : y.answer h = x.answer h := by
  rw [answer, answer, hxy]

/-- What only looks at the heap looks like itself. -/
theorem Action.answer_consult (hf : (f h h.levelsLeft).StopsWithin h.levelsLeft) :
    (consult f).answer h = f h h.levelsLeft := by
  rw [answer, consult]
  generalize f h h.levelsLeft = answer at hf ⊢
  rcases answer with ⟨es, (e | ⟨f, levels⟩) | a⟩
  · rfl
  · have hlevels : levels ≤ h.levelsLeft := hf _ rfl
    have hleft : h.budget.depthLimit - (h.budget.depthLimit - levels) = levels :=
      Nat.sub_sub_self (Nat.le_trans hlevels (Nat.sub_le _ _))
    simp only [Heap.levelsLeft, hleft]
  · rfl

/-- On its own level it looks as it does there. -/
theorem Action.answer_oneLevelDown :
    (oneLevelDown x).answer h = x.answer { h with depth := h.depth + 1 } := by
  rw [answer, answer, oneLevelDown]
  generalize x { h with depth := h.depth + 1 } = o
  rcases o with ⟨(e | f) | a, k, es⟩ <;> rfl

theorem Action.InStep.consult (hle : depth ≤ limit)
    (hfg : ∀ h : Heap, h.OnLevel depth limit → g h h.levelsLeft = f h h.levelsLeft)
    (hf : ∀ h : Heap, (f h h.levelsLeft).StopsWithin h.levelsLeft) :
    InStep depth limit (consult f) (consult g) := by
  intro h hh
  refine ⟨?_, .consult hh hle (hf h)⟩
  simp only [Action.consult, hfg h hh]

end Answers

/-! ## Under watch -/

namespace Watched

variable {alarm : Failure} {floor steps : Nat} {x y : Action α}

/-- **No alarm is rung where the count is right.** -/
theorem inStep_watch (hfloor : floor ≤ depth) (hle : depth ≤ limit)
    (hxy : Action.InStep depth limit x y) : Action.InStep depth limit x (watch alarm floor y) := by
  intro h hh
  obtain ⟨hy, hx⟩ := hxy h hh
  refine ⟨?_, hx⟩
  obtain ⟨rfl, rfl⟩ := hh
  rw [watch, if_pos ⟨hfloor, hle, hy ▸ hx⟩, hy]

/-- A level is entered if one is left, and left again with no alarm if the count is right. -/
theorem inStep_oneLevelDown {refused : ResourceError → RunError} (hfloor : floor ≤ depth)
    (hlt : depth < limit) (hxy : Action.InStep (depth + 1) limit x y) :
    Action.InStep depth limit (Action.oneLevelDown x) (oneLevelDown alarm floor refused y) := by
  intro h hh
  have hk : ({ h with depth := h.depth + 1 } : Heap).OnLevel (depth + 1) limit :=
    ⟨congrArg (· + 1) hh.1, hh.2⟩
  have hwatched : Action.InStep (depth + 1) limit x (watch alarm floor y) :=
    inStep_watch (Nat.le_succ_of_le hfloor) (Nat.succ_le_of_lt hlt) hxy
  obtain ⟨hwatch, hx⟩ := hwatched _ hk
  have henter : h.enter = .ok { h with depth := h.depth + 1 } :=
    if_pos (hh.levelsLeft_eq ▸ Nat.sub_pos_of_lt hlt)
  refine ⟨?_, .oneLevelDown hx⟩
  simp only [oneLevelDown, henter, hwatch, Action.oneLevelDown]
  generalize x { h with depth := h.depth + 1 } = o at hx ⊢
  rcases o with ⟨(e | f) | a, l, es⟩
  · exact if_pos (hx.1.symm ▸ Nat.lt_succ_of_le hfloor)
  · rfl
  · exact if_pos (hx.1.symm ▸ Nat.lt_succ_of_le hfloor)

/-- No level is entered where none is left. -/
theorem oneLevelDown_full {refused : ResourceError → RunError} {h : Heap}
    (hh : h.OnLevel limit limit) :
    oneLevelDown alarm floor refused x h =
      ⟨.error (.error (refused h.budget.noLevelLeft)), h, [.tooDeep h.budget.depthLimit]⟩ := by
  have henter : h.enter = .error h.budget.noLevelLeft := by
    rw [Heap.enter, if_neg (by rw [hh.levelsLeft_eq]; omega), Budget.noLevelLeft, hh.1, hh.2]
  simp only [oneLevelDown, henter]

/-! ### Comparisons -/

section Comparisons

variable {mode : Mode} {judge : Value → Value → Operator → Action Bool}

theorem answer_judge (hjudge : ∀ x y op,
      Action.InStep depth limit (richCompare mode x y op) (judge x y op))
    {h : Heap} (hh : h.OnLevel depth limit) :
    (fun x y op => (judge x y op).answer h) = Compare.within h mode h.levelsLeft := by
  funext x y op
  rw [Action.answer_congr (hjudge x y op h hh).1]
  exact Action.answer_consult (Compare.within_stopsWithin _ _ _ _ _ _)

theorem inStep_compareLevel (hle : depth ≤ limit)
    (hjudge : ∀ x y op, Action.InStep depth limit (richCompare mode x y op) (judge x y op))
    (a b : Value) (op : Operator) :
    Action.InStep depth limit (richCompareHere mode a b op) (compareLevel mode judge a b op) := by
  refine .consult hle (fun h hh => ?_) fun h =>
    Compare.dispatch_stopsWithin (Compare.within_stopsWithin _ _ _)
  rw [answer_judge hjudge hh]

/-- **A comparison under watch.** -/
theorem inStep_compare (mode : Mode) (hsteps : limit - depth < steps) (hfloor : floor ≤ depth)
    (hle : depth ≤ limit) (a b : Value) (op : Operator) :
    Action.InStep depth limit (richCompare mode a b op)
      (compare alarm floor mode steps a b op) := by
  induction steps generalizing depth a b op with
  | zero => exact absurd hsteps (Nat.not_lt_zero _)
  | succ steps ih =>
    refine inStep_watch hfloor hle (.consult hle (fun h hh => ?_) fun h =>
      Compare.within_stopsWithin _ _ _ _ _ _)
    rw [hh.levelsLeft_eq]
    cases hleft : limit - depth with
    | zero =>
      obtain rfl : depth = limit := by omega
      simp only [Compare.within, Action.answer, oneLevelDown_full hh]
      rfl
    | succ n =>
      have hn : limit - (depth + 1) = n := by omega
      have hlt : depth + 1 ≤ limit := by omega
      have hparts (a b : Value) (op : Operator) :
          Action.InStep (depth + 1) limit (richCompareHere mode a b op)
            (compareLevel mode (compare alarm floor mode steps) a b op) :=
        inStep_compareLevel hlt (ih (by omega) (Nat.le_succ_of_le hfloor) hlt) a b op
      have hdown (a b : Value) (op : Operator) :
          (oneLevelDown alarm floor (fun _ => .raised .comparisonTooDeep)
            (compareLevel mode (compare alarm floor mode steps) a b op)).answer h =
            Compare.dispatch h mode n (Compare.within h mode n) a b op := by
        have hk : ({ h with depth := h.depth + 1 } : Heap).levelsLeft = n := by
          rw [Heap.levelsLeft, hh.1, hh.2, hn]
        rw [Action.answer_congr (inStep_oneLevelDown hfloor hlt (hparts a b op) h hh).1,
          Action.answer_oneLevelDown, richCompareHere, Action.answer_consult, hk,
          Compare.within_depth, Compare.dispatch_depth]
        exact Compare.dispatch_stopsWithin (Compare.within_stopsWithin _ _ _)
      simp only [Compare.within, hdown]

end Comparisons

/-! ### Fingerprints -/

/-- **A fingerprint under watch.** -/
theorem inStep_hash (hsteps : limit - depth < steps) (hfloor : floor ≤ depth) (hle : depth ≤ limit)
    (v : Value) : Action.InStep depth limit (deepHash v) (hash alarm floor steps v) := by
  induction steps generalizing depth v with
  | zero => exact absurd hsteps (Nat.not_lt_zero _)
  | succ steps ih =>
    refine inStep_watch hfloor hle (.consult hle (fun h hh => ?_) fun h =>
      Fingerprint.within_stopsWithin _ _ _)
    rw [hh.levelsLeft_eq]
    cases hleft : limit - depth with
    | zero =>
      obtain rfl : depth = limit := by omega
      refine (Answer.Congruence.eq 0).ofValueWith rfl rfl _ _ (fun x _ => ?_) v
      rw [Action.answer, oneLevelDown_full hh]
      rfl
    | succ n =>
      refine (Answer.Congruence.eq (n + 1)).ofValueWith rfl rfl _ _ (fun x hx => ?_) v
      have hn : limit - (depth + 1) = n := by omega
      have hlt : depth + 1 ≤ limit := by omega
      have hfold (k : Heap) :
          (x (Fingerprint.within k k.levelsLeft)).StopsWithin k.levelsLeft :=
        hx.stopsWithin (Fingerprint.within_stopsWithin k _)
      have hparts : Action.InStep (depth + 1) limit
          (Action.consult fun k levels => x (Fingerprint.within k levels))
          (Action.consult fun k _ => x fun w => (hash alarm floor steps w).answer k) := by
        refine .consult hlt (fun k hk => congrArg x (funext fun w => ?_)) hfold
        rw [Action.answer_congr (ih (by omega) (Nat.le_succ_of_le hfloor) hlt w k hk).1]
        exact Action.answer_consult (Fingerprint.within_stopsWithin _ _ _)
      have hk : ({ h with depth := h.depth + 1 } : Heap).levelsLeft = n := by
        rw [Heap.levelsLeft, hh.1, hh.2, hn]
      rw [Action.answer_congr (inStep_oneLevelDown hfloor hlt hparts h hh).1,
        Action.answer_oneLevelDown, Action.answer_consult (hfold _), hk, Fingerprint.within_depth]
      rfl

/-! ### Copies -/

/-- **A copy under watch.** -/
theorem inStep_copy (hsteps : limit - depth < steps) (hfloor : floor ≤ depth) (hle : depth ≤ limit)
    (v : Value) :
    Action.InStep depth limit (Copy.within (limit - depth) v) (copy alarm floor steps v) := by
  induction steps generalizing depth v with
  | zero => exact absurd hsteps (Nat.not_lt_zero _)
  | succ steps ih =>
    refine inStep_watch hfloor hle ?_
    cases hleft : limit - depth with
    | zero =>
      obtain rfl : depth = limit := by omega
      rw [Copy.within, Copy.ofValue_eq]
      refine (Action.inStep_congruence hle).ofValueWith (Action.inStep_congruence hle) _ _ ?_ v
      rintro x - h hh
      exact ⟨oneLevelDown_full hh, hh⟩
    | succ n =>
      have hn : limit - (depth + 1) = n := by omega
      have hlt : depth + 1 ≤ limit := by omega
      rw [Copy.within, Copy.ofValue_eq]
      refine (Action.inStep_congruence hle).ofValueWith (Action.inStep_congruence hlt) _ _ ?_ v
      exact fun x hx => inStep_oneLevelDown hfloor hlt
        (hx _ _ fun w => hn ▸ ih (by omega) (Nat.le_succ_of_le hfloor) hlt w)

/-! ### Building -/

/-- A search for a key under watch. -/
theorem inStep_find (hsteps : limit - depth < steps) (hfloor : floor ≤ depth) (hle : depth ≤ limit)
    (wanted : HashedKey) (stored : List HashedKey) :
    Action.InStep depth limit (Build.find wanted stored)
      (find alarm floor steps wanted stored) := by
  have hsearch : Action.InStep depth limit
      (Action.consult fun h levels =>
        Compare.position (Compare.within h .total levels) wanted stored)
      (Action.consult fun h _ => Compare.position
        (fun x y op => (compare alarm floor .total steps x y op).answer h) wanted stored) := by
    refine .consult hle (fun h hh => ?_) fun h =>
      Compare.position_stopsWithin (Compare.within_stopsWithin _ _ _) _ _
    rw [answer_judge (inStep_compare .total hsteps hfloor hle) hh]
  refine inStep_watch hfloor hle fun h hh => ?_
  obtain ⟨hy, hx⟩ := hsearch h hh
  refine ⟨?_, hx⟩
  rw [Action.silently, hy]
  rfl

/-- **Building under watch.** -/
theorem inStep_build (hsteps : limit - depth < steps) (hfloor : floor ≤ depth) (hle : depth ≤ limit)
    (o : Object) : Action.InStep depth limit o.build (build alarm floor steps o) :=
  inStep_watch hfloor hle
    ((Action.inStep_congruence hle).buildWith (inStep_find hsteps hfloor hle) o)

end Watched

/-! ## All operations -/

/-- An operation on a heap ends on the level on which it began, and it does the same as one under
watch that is to stay above that level: whatever the alarm, and with any number of steps beyond the
levels that are left. -/
def Action.KeepsCount (h : Heap) (x : Action α) (watched : Failure → Nat → Nat → Action α) : Prop :=
  (x h).Balanced h.depth h.budget.depthLimit ∧
    ∀ (alarm : Failure) (steps : Nat), h.levelsLeft < steps → watched alarm h.depth steps h = x h

theorem Action.keepsCount_of_inStep {h : Heap} {x : Action α}
    {watched : Failure → Nat → Nat → Action α}
    (hxy : ∀ alarm steps, h.levelsLeft < steps →
      InStep h.depth h.budget.depthLimit x (watched alarm h.depth steps)) :
    x.KeepsCount h watched :=
  ⟨(hxy (.fault .overflow) _ (Nat.lt_succ_self _) h ⟨rfl, rfl⟩).2,
    fun alarm steps hsteps => (hxy alarm steps hsteps h ⟨rfl, rfl⟩).1⟩

/-- **The count of levels is balanced.**  On any heap within its limit, data that contain themselves
among its contents, building a value, copying one, fingerprinting one and comparing two end on the
level on which they began, with a result or with an error.  On the way the count stays between that
level and the limit, and no level is left that was not entered: under watch they do the same, and no
alarm is rung. -/
theorem depth_balanced (h : Heap) (hdepth : h.depth ≤ h.budget.depthLimit) :
    (∀ o : Object, Action.KeepsCount h o.build fun alarm floor steps =>
        Watched.build alarm floor steps o) ∧
      (∀ v, Action.KeepsCount h (deepCopy v) fun alarm floor steps =>
        Watched.copy alarm floor steps v) ∧
      (∀ v, Action.KeepsCount h (deepHash v) fun alarm floor steps =>
        Watched.hash alarm floor steps v) ∧
      (∀ mode a b op, Action.KeepsCount h (richCompare mode a b op) fun alarm floor steps =>
        Watched.compare alarm floor mode steps a b op) ∧
      (∀ mode a b op, Action.KeepsCount h (richCompareHere mode a b op) fun alarm floor steps =>
        Watched.compareHere alarm floor mode steps a b op) ∧
      ∀ mode a b op, Action.KeepsCount h (compareByFallback mode a b op) fun alarm floor _ =>
        Watched.watch alarm floor (compareByFallback mode a b op) := by
  have hfloor := Nat.le_refl h.depth
  refine ⟨fun o => ?_, fun v => ?_, fun v => ?_, fun mode a b op => ?_, fun mode a b op => ?_,
    fun mode a b op => ?_⟩ <;> refine Action.keepsCount_of_inStep fun alarm steps hsteps => ?_
  · exact Watched.inStep_build hsteps hfloor hdepth o
  · intro k hk
    rw [deepCopy, hk.levelsLeft_eq]
    exact Watched.inStep_copy hsteps hfloor hdepth v k hk
  · exact Watched.inStep_hash hsteps hfloor hdepth v
  · exact Watched.inStep_compare mode hsteps hfloor hdepth a b op
  · exact Watched.inStep_watch hfloor hdepth (Watched.inStep_compareLevel hdepth
      (Watched.inStep_compare mode hsteps hfloor hdepth) a b op)
  · exact Watched.inStep_watch hfloor hdepth (.consult hdepth (fun _ _ => rfl) fun k =>
      Compare.fallback_stopsWithin k mode _ a b op)

/-- Two lists that contain themselves, on the second of three levels: whether they are equal cannot
be found out, nor can one of them be copied, and the second level is the one that both attempts end
on. -/
theorem depth_balanced_circle :
    let h : Heap := ⟨#[some ⟨1, .list [.ref 0]⟩, some ⟨1, .list [.ref 1]⟩], [],
      .under { depth := some 3 }, 1⟩
    h.depth ≤ h.budget.depthLimit ∧
      (richCompare .total (.ref 0) (.ref 1) .eq h).result =
        .error (.error (.raised .comparisonTooDeep)) ∧
      (richCompare .total (.ref 0) (.ref 1) .eq h).heap.depth = 1 ∧
      Watched.compare (.fault .overflow) 1 .total 3 (.ref 0) (.ref 1) .eq h =
        richCompare .total (.ref 0) (.ref 1) .eq h ∧
      (deepCopy (.ref 0) h).result = .error (.error (.resource (.recursion 3 4))) ∧
      (deepCopy (.ref 0) h).heap.depth = 1 ∧
      Watched.copy (.fault .overflow) 1 3 (.ref 0) h = deepCopy (.ref 0) h := by
  intro h
  have hdepth : h.depth ≤ h.budget.depthLimit := by decide
  have hsteps : h.levelsLeft < 3 := by decide
  obtain ⟨-, hcopy, -, hcompare, -⟩ := depth_balanced h hdepth
  have htooDeep : (richCompare .total (.ref 0) (.ref 1) .eq h).result =
      .error (.error (.raised .comparisonTooDeep)) := by decide +kernel
  have hrefused : (deepCopy (.ref 0) h).result =
      .error (.error (.resource (.recursion 3 4))) := by decide +kernel
  obtain ⟨hbalanced, hsame⟩ := hcompare .total (.ref 0) (.ref 1) .eq
  obtain ⟨hbalanced', hsame'⟩ := hcopy (.ref 0)
  rw [Outcome.Balanced, htooDeep] at hbalanced
  rw [Outcome.Balanced, hrefused] at hbalanced'
  exact ⟨hdepth, htooDeep, hbalanced.1, hsame _ 3 hsteps, hrefused, hbalanced'.1, hsame' _ 3 hsteps⟩

end ValueHeap
