import ValueHeap.Proofs.Action
import ValueHeap.Proofs.Compare.MoreLevels
import ValueHeap.Proofs.Congruence
import ValueHeap.Proofs.Heap.Limit

/-!
# Operations under a higher limit on nesting

An operation is held against the same one under a limit on nesting that is no lower, piece by piece
along the ways in which operations are put together.  Where the first one is conclusive, the second
one does the very same, and leaves the same heap but for the limit.

What is cleaned up behind an error needs a closer look: a refusal is followed by the same releases
as any other error, and must not be turned into an answer by them.  It is not, since releases end
well or in a fault.

## What is here

* `Outcome.Conclusive` — an operation that has ended in a result, or in an error of another kind
  than `RecursionError`.
* `Action.Persists` — an operation that does what another one does, under a limit that is no lower.
* `Action.Persists.bind`, `Action.Persists.onError` and their like — one rule for each way of
  putting operations together.
* `Action.persists_retain`, `Action.persists_release` and `Action.persists_allocate` — what is done
  to slots.
* `Action.persists_congruence` — all of this at once.
-/

set_option autoImplicit false

namespace ValueHeap

variable {α β : Type}

/-- The operation has come to an end of its own: a result, or an error of another kind than
`RecursionError`.  A fault only breaks it off. -/
def Outcome.Conclusive (o : Outcome α) : Prop := ∀ e, o.result = .error e → ¬e.Premature

/-- The same outcome, with another limit on nesting in the heap that is left. -/
def Outcome.withDepthLimit (o : Outcome α) (limit : Option Nat) : Outcome α :=
  { o with heap := o.heap.withDepthLimit limit }

namespace Action

variable {limit : Option Nat} {x y : Action α}

/-- Whatever heap the first operation is conclusive on, the second one does the same under a limit
that is no lower. -/
def Persists (limit : Option Nat) (x y : Action α) : Prop :=
  ∀ h : Heap, h.Raised limit → (x h).Conclusive →
    (x h).heap.Raised limit ∧ y (h.withDepthLimit limit) = (x h).withDepthLimit limit

/-! ## Steps -/

/-- Nothing is asked of what takes the place of a refusal. -/
theorem persists_of_premature (hx : ∀ h, ¬(x h).Conclusive) : Persists limit x y :=
  fun h _ hc => absurd hc (hx h)

theorem persists_pure (a : α) : Persists limit (pure a) (pure a) := fun _ hh _ => ⟨hh, rfl⟩

theorem persists_raise (c : Cause) : Persists limit (raise c : Action α) (raise c) :=
  fun _ hh _ => ⟨hh, rfl⟩

theorem persists_report (e : Event) : Persists limit (report e) (report e) :=
  fun _ hh _ => ⟨hh, rfl⟩

theorem persists_look {f : Heap → Except Fault α} (hf : ∀ h, f (h.withDepthLimit limit) = f h) :
    Persists limit (look f) (look f) := by
  intro h hh _
  rw [look, look, hf]
  cases f h <;> exact ⟨hh, rfl⟩

/-- What only the slots decide is the same under any limit. -/
theorem persists_look_cells {f : Heap → Except Fault α}
    (hf : ∀ h k : Heap, k.cells = h.cells → f k = f h) : Persists limit (look f) (look f) :=
  persists_look fun h => hf h _ (h.cells_withDepthLimit limit)

theorem persists_change {f : Heap → Except Fault α × Heap}
    (hf : ∀ h, f (h.withDepthLimit limit) = ((f h).1, (f h).2.withDepthLimit limit))
    (hkeep : ∀ h, h.Raised limit → (f h).2.Raised limit) :
    Persists limit (change f) (change f) := by
  intro h hh _
  have hk := hkeep h hh
  rw [change, change, hf]
  generalize f h = o at hk ⊢
  rcases o with ⟨_ | _, k⟩ <;> exact ⟨hk, rfl⟩

/-- What only looks at the heap has more levels to go. -/
theorem persists_consult {f g : Heap → Nat → Answer α}
    (hfg : ∀ h, h.Raised limit → Answer.Matches .deeper Eq (f h h.levelsLeft)
      (g (h.withDepthLimit limit) (h.withDepthLimit limit).levelsLeft)) :
    Persists limit (consult f) (consult g) := by
  intro h hh hx
  have hsame := Answer.matches_deeper_iff.1 (hfg h hh) fun e he =>
    hx e.failure (by rw [result_consult, he]; rfl)
  rw [consult] at hx ⊢
  rw [consult, hsame]
  generalize f h h.levelsLeft = answer at hx ⊢
  rcases answer with ⟨es, (e | f) | a⟩
  · exact ⟨hh, rfl⟩
  · exact absurd trivial (hx _ rfl)
  · exact ⟨hh, rfl⟩

/-! ## Operations put together -/

namespace Persists

theorem bind {f g : α → Action β} (hxy : Persists limit x y)
    (hfg : ∀ a, Persists limit (f a) (g a)) : Persists limit (x >>= f) (y >>= g) := by
  intro h hh hc
  cases hx : (x h).result with
  | ok a =>
    obtain ⟨hk, hy⟩ := hxy h hh fun e he => by rw [hx] at he; cases he
    rw [bind_apply_ok hx] at hc ⊢
    obtain ⟨hl, hg⟩ := hfg a _ hk hc
    have hya : (y (h.withDepthLimit limit)).result = .ok a := by rw [hy]; exact hx
    refine ⟨hl, ?_⟩
    rw [bind_apply_ok hya, hy]
    simp only [Outcome.withDepthLimit, hg]
  | error e =>
    rw [bind_apply_error hx] at hc ⊢
    obtain ⟨hk, hy⟩ := hxy h hh fun e' he' => by
      rw [hx] at he'
      cases he'
      exact hc e rfl
    have hye : (y (h.withDepthLimit limit)).result = .error e := by rw [hy]; exact hx
    refine ⟨hk, ?_⟩
    rw [bind_apply_error hye, hy]
    rfl

theorem silently (hxy : Persists limit x y) : Persists limit (silently x) (silently y) := by
  intro h hh hc
  obtain ⟨hk, hy⟩ := hxy h hh hc
  refine ⟨hk, ?_⟩
  rw [Action.silently, hy]
  rfl

/-- The releases behind an error are the same, and they do not put another error in its place. -/
theorem onError (hxy : Persists limit x y) (vs : List Value) :
    Persists limit (onError x (release vs)) (onError y (release vs)) := by
  intro h hh hc
  have hxc : (x h).Conclusive := by
    rw [Action.onError] at hc
    generalize x h = o at hc ⊢
    rcases o with ⟨r, k, es⟩
    rintro (e | f) ⟨⟩ hpre
    · rcases hr : k.release (vs.filterMap Value.slot?) with ⟨f | u, l⟩
      · simp only [release_apply_error hr] at hc
        exact hc _ rfl trivial
      · simp only [release_apply_ok hr] at hc
        exact hc _ rfl hpre
    · exact hc _ rfl trivial
  obtain ⟨hk, hy⟩ := hxy h hh hxc
  rw [Action.onError] at hc ⊢
  rw [Action.onError, hy]
  generalize x h = o at hc hk ⊢
  rcases o with ⟨(e | f) | a, k, es⟩
  · have hl := Heap.steady_raised.release hk (vs.filterMap Value.slot?)
    have hrelease := k.release_withDepthLimit limit (vs.filterMap Value.slot?)
    rcases hr : k.release (vs.filterMap Value.slot?) with ⟨f | u, l⟩ <;> rw [hr] at hl hrelease
    · simp only [release_apply_error hr] at hc
      exact absurd trivial (hc _ rfl)
    · simp only [Outcome.withDepthLimit, release_apply_ok hr, release_apply_ok hrelease]
      exact ⟨hl, trivial⟩
  · exact ⟨hk, rfl⟩
  · exact ⟨hk, rfl⟩

theorem oneLevelDown (hxy : Persists limit x y) :
    Persists limit (oneLevelDown x) (oneLevelDown y) := by
  intro h hh hc
  have hxc : (x { h with depth := h.depth + 1 }).Conclusive := by
    rw [Action.oneLevelDown] at hc
    generalize x { h with depth := h.depth + 1 } = o at hc ⊢
    rcases o with ⟨r, k, es⟩
    rintro (e | f) ⟨⟩ <;> exact hc _ rfl
  obtain ⟨hk, hy⟩ := hxy { h with depth := h.depth + 1 } hh hxc
  have hy : y { h.withDepthLimit limit with depth := (h.withDepthLimit limit).depth + 1 } = _ := hy
  rw [Action.oneLevelDown, Action.oneLevelDown, hy]
  generalize x { h with depth := h.depth + 1 } = o at hk ⊢
  rcases o with ⟨(e | f) | a, k, es⟩ <;> exact ⟨hk, rfl⟩

end Persists

/-! ## Slots -/

theorem persists_retain (v : Value) : Persists limit (retain v) (retain v) := by
  cases v with
  | ref s =>
    refine Persists.bind ?_ fun _ => persists_pure _
    exact persists_change (fun h => h.retain_withDepthLimit limit s) fun _ hh =>
      Heap.steady_raised.retain hh s
  | _ => exact persists_pure _

theorem persists_release (vs : List Value) : Persists limit (release vs) (release vs) :=
  persists_change (fun h => h.release_withDepthLimit limit _) fun _ hh =>
    Heap.steady_raised.release hh _

theorem persists_allocate (p : Payload) : Persists limit (allocate p) (allocate p) := by
  intro h hh _
  have hk := hh.allocate p
  rw [allocate, allocate, h.allocate_withDepthLimit limit]
  generalize h.allocate p = o at hk ⊢
  rcases o with ⟨_ | _, k⟩ <;> exact ⟨hk, rfl⟩

/-- **Operations that are put together do the same** under a limit that is no lower. -/
theorem persists_congruence : Congruence fun _ x y => Persists limit x y where
  pure := persists_pure
  raise := persists_raise
  report := persists_report
  look := persists_look_cells
  depth := persists_look fun _ => rfl
  bind := Persists.bind
  onError := Persists.onError
  retain := persists_retain
  release := persists_release
  allocate := persists_allocate

end Action

end ValueHeap
