import ValueHeap.Proofs.Answer
import ValueHeap.Proofs.Heap.Carries

/-!
# How operations end

An operation on a heap ends in a result, in an error or in a fault.  Of the faults only one can be
met in a sound heap: memory in use that no longer fits a word.  What holds at either of the other
ends is shown here piece by piece, along the ways in which operations are put together.

## What is here

* `Outcome.Lands` — what holds of the result and the heap, and what holds of the heap after an
  error.
* `Action.lands_bind`, `Action.lands_onError` and their like — one rule for each way of putting
  operations together.
* `Action.lands_retain`, `Action.lands_release` and `Action.lands_allocate` — values that are taken,
  given back and put into a slot.
-/

set_option autoImplicit false

namespace ValueHeap

/-- The outcome is a result and a heap as `good` says, or an error and a heap as `bad` says, or
memory in use has become too much for a word. -/
def Outcome.Lands {α : Type} (good : α → Heap → Prop) (bad : Heap → Prop) (o : Outcome α) : Prop :=
  match o.result with
  | .ok a => good a o.heap
  | .error (.error _) => bad o.heap
  | .error (.fault f) => f = .overflow

section Lands

variable {α : Type} {good : α → Heap → Prop} {bad : Heap → Prop} {o : Outcome α}

theorem Outcome.Lands.of_ok {a : α} (ho : o.Lands good bad) (hr : o.result = .ok a) :
    good a o.heap := by
  rw [Outcome.Lands, hr] at ho
  exact ho

theorem Outcome.Lands.of_error {e : RunError} (ho : o.Lands good bad)
    (hr : o.result = .error (.error e)) : bad o.heap := by
  rw [Outcome.Lands, hr] at ho
  exact ho

end Lands

namespace Action

variable {α β : Type} {good : α → Heap → Prop} {bad : Heap → Prop} {h : Heap} {x : Action α}

/-! ## Operations put together -/

theorem lands_mono {good' : α → Heap → Prop} {bad' : Heap → Prop} {o : Outcome α}
    (ho : o.Lands good bad) (hgood : ∀ a k, good a k → good' a k) (hbad : ∀ k, bad k → bad' k) :
    o.Lands good' bad' := by
  rcases o with ⟨(_ | _) | a, k, es⟩
  · exact hbad k ho
  · exact ho
  · exact hgood a k ho

theorem lands_pure {a : α} (ha : good a h) : ((pure a : Action α) h).Lands good bad := ha

theorem lands_raise {c : Cause} (hb : bad h) : ((raise c : Action α) h).Lands good bad := hb

theorem lands_bind {mid : β → Heap → Prop} {y : Action β} {f : β → Action α}
    (hy : (y h).Lands mid bad) (hf : ∀ b k, mid b k → (f b k).Lands good bad) :
    ((y >>= f) h).Lands good bad := by
  show (Action.bind y f h).Lands good bad
  rw [Action.bind]
  generalize y h = o at hy ⊢
  rcases o with ⟨(_ | _) | b, k, es⟩
  · exact hy
  · exact hy
  · exact hf b k hy

theorem lands_ite {c : Prop} [Decidable c] {y : Action α} (hx : c → (x h).Lands good bad)
    (hy : ¬c → (y h).Lands good bad) : ((if c then x else y) h).Lands good bad := by
  by_cases hc : c
  · rw [if_pos hc]
    exact hx hc
  · rw [if_neg hc]
    exact hy hc

theorem lands_map {f : β → α} {y : Action β} (hy : (y h).Lands (fun b => good (f b)) bad) :
    ((f <$> y) h).Lands good bad := by
  rw [map_eq_pure_bind]
  exact lands_bind hy fun b k hb => lands_pure hb

/-- What is cleaned up behind an error is what the error left. -/
theorem lands_onError {mid : Heap → Prop} {cleanup : Action Unit} (hx : (x h).Lands good mid)
    (hcleanup : ∀ k, mid k → (cleanup k).Lands (fun _ => bad) bad) :
    (onError x cleanup h).Lands good bad := by
  rw [onError]
  generalize x h = o at hx ⊢
  rcases o with ⟨(e | _) | a, k, es⟩
  · have hc := hcleanup k hx
    simp only
    generalize cleanup k = o at hc ⊢
    rcases o with ⟨(_ | _) | _, k', fs⟩
    · exact hc
    · exact hc
    · exact hc
  · exact hx
  · exact hx

theorem lands_silently (hx : (x h).Lands good bad) : (silently x h).Lands good bad := hx

theorem lands_look_bind {f : Heap → Except Fault β} {g : β → Action α} {b : β} (hf : f h = .ok b)
    (hg : (g b h).Lands good bad) : ((look f >>= g) h).Lands good bad := by
  have hlook : (look f h).Lands (fun c k => c = b ∧ k = h) bad := by
    rw [look, hf]
    exact ⟨rfl, rfl⟩
  refine lands_bind hlook ?_
  rintro _ _ ⟨rfl, rfl⟩
  exact hg

theorem lands_report_bind {e : Event} {g : Unit → Action α} (hg : (g () h).Lands good bad) :
    ((report e >>= g) h).Lands good bad := by
  have hreport : (report e h).Lands (fun _ k => k = h) bad := rfl
  refine lands_bind hreport ?_
  rintro _ _ rfl
  exact hg

theorem lands_change {f : Heap → Except Fault α × Heap} {a : α} (hf : (f h).1 = .ok a)
    (ha : good a (f h).2) : (change f h).Lands good bad := by
  rw [change]
  generalize f h = o at hf ha ⊢
  rcases o with ⟨_ | _, k⟩
  · cases hf
  · cases hf
    exact ha

theorem lands_consult {f : Heap → Nat → Answer α} (hf : (f h h.levelsLeft).Faultless)
    (ha : ∀ a, (f h h.levelsLeft).result = .ok a → good a h) (hb : bad h) :
    (consult f h).Lands good bad := by
  rw [consult]
  cases hr : (f h h.levelsLeft).result with
  | ok a => exact ha a hr
  | error e =>
    cases e with
    | error e => exact hb
    | fault fault levels => exact absurd hr (hf fault levels)

theorem result_consult (f : Heap → Nat → Answer α) (h : Heap) :
    (consult f h).result = (f h h.levelsLeft).result.mapError Halt.failure := by
  rw [consult]
  generalize f h h.levelsLeft = answer
  rcases answer with ⟨es, (_ | _) | a⟩ <;> rfl

theorem result_consult_eq_ok {f : Heap → Nat → Answer α} {a : α} :
    (consult f h).result = .ok a ↔ (f h h.levelsLeft).result = .ok a := by
  rw [consult]
  generalize f h h.levelsLeft = answer
  rcases answer with ⟨es, (_ | _) | b⟩ <;> simp

theorem lands_oneLevelDown
    (hx : (x { h with depth := h.depth + 1 }).Lands (fun a k => good a k.leave)
      fun k => bad k.leave) :
    (oneLevelDown x h).Lands good bad := by
  rw [oneLevelDown]
  generalize x { h with depth := h.depth + 1 } = o at hx ⊢
  rcases o with ⟨(_ | _) | a, k, es⟩
  · exact hx
  · exact hx
  · exact hx

end Action

namespace Action

variable {start h : Heap} {held : Multiset Slot} {mine : Multiset Value} {bad : Heap → Prop}

/-! ## References -/

theorem release_apply_ok {vs : List Value} {k : Heap}
    (hk : h.release (vs.filterMap Value.slot?) = (.ok (), k)) : release vs h = ⟨.ok (), k, []⟩ := by
  simp only [release, change, hk]

theorem release_apply_error {vs : List Value} {k : Heap} {f : Fault}
    (hk : h.release (vs.filterMap Value.slot?) = (.error f, k)) :
    release vs h = ⟨.error (.fault f), k, []⟩ := by
  simp only [release, change, hk]

theorem lands_retain {v : Value} (hh : start.Carries held mine h) (hv : h.Names v) :
    (retain v h).Lands
      (fun w k => w = v ∧ h.Extends k ∧ start.Carries held ({v} + mine) k) bad := by
  cases v with
  | ref s =>
    obtain ⟨c, hc, -⟩ := Heap.exists_cell?_of_find? (Option.get_mem (hv s rfl))
    obtain ⟨hok, hsound, hext⟩ := hh.sound.retain hc
    have hchange : (change (fun h => h.retain s) h).Lands (fun _ k => k = (h.retain s).2) bad :=
      lands_change hok rfl
    refine lands_bind hchange ?_
    rintro _ k rfl
    refine lands_pure ⟨rfl, hext, ?_, hh.kept.trans hext, hh.removable.retain hc⟩
    rwa [slotsOf_add, slotsOf_ref, add_assoc, Multiset.singleton_add]
  | _ =>
    refine lands_pure ⟨rfl, Heap.Extends.refl h, ?_, hh.kept, hh.removable⟩
    rw [slotsOf_add]
    exact (zero_add (slotsOf mine)).symm ▸ hh.sound

theorem lands_release (vs : List Value) (hstart : start.Sound held)
    (hh : start.Carries held (vs + mine) h) :
    (release vs h).Lands (fun _ k => k.Extends h ∧ start.Carries held mine k) bad := by
  have hs := hh.sound
  rw [slotsOf_add, slotsOf_coe, add_assoc] at hs
  obtain ⟨hok, hsound, hext⟩ := hs.release
  have hle := Multiset.le_add_left held (slotsOf mine)
  have hkept := Heap.Extends.release hstart hle hs hh.kept
  have hremovable := hh.removable.release hstart hle hs hh.kept
  exact lands_change hok ⟨hext, hsound, hkept, hremovable⟩

/-- What is carried beside the values given back is left behind an error. -/
theorem lands_cleanup {vs : List Value} {all : Multiset Value} (hstart : start.Sound held)
    (hh : start.Carries held all h) (hall : all = vs + mine) :
    (release vs h).Lands (fun _ => start.Carries held mine) (start.Carries held mine) :=
  lands_mono (lands_release vs hstart (hall ▸ hh)) (fun _ _ hk => hk.2) fun _ hk => hk

/-- Contents are placed, or their references are given back. -/
theorem lands_place {p : Payload} {held' : Multiset Slot} (hstart : start.Sound held)
    (hsub : held ≤ held') (hs : h.Sound (p.children + held')) (hkept : start.Extends h)
    (hfit : h.Fits p) :
    (allocate p h).Lands (fun v k => k.Sound (slotsOf {v} + held') ∧ h.Extends k)
      (fun k => k.Sound held' ∧ start.Extends k) := by
  have hplace := hstart.allocate hsub hs hkept hfit
  rw [allocate]
  generalize h.allocate p = o at hplace ⊢
  rcases o with ⟨(_ | _) | s, k⟩
  · exact hplace
  · exact hplace
  · refine ⟨?_, hplace.2.1⟩
    rw [slotsOf_ref, Multiset.singleton_add]
    exact hplace.1

/-- Contents made of all that is carried are placed, or given back. -/
theorem lands_allocate {p : Payload} (hstart : start.Sound held) (hh : start.Carries held mine h)
    (hslots : slotsOf mine = p.children) (hfit : h.Fits p) :
    (allocate p h).Lands (fun v k => start.Carries held {v} k) (start.Carries held 0) := by
  have hs := hh.sound
  rw [hslots] at hs
  have hplace := lands_place hstart (le_refl held) hs hh.kept hfit
  have hremovable := hh.removable.allocate hstart (le_refl held) hs hh.kept
  rw [allocate] at hplace ⊢
  generalize h.allocate p = o at hplace hremovable ⊢
  rcases o with ⟨(_ | _) | s, k⟩
  · exact ⟨(zero_add held).symm ▸ hplace.1, hplace.2, hremovable⟩
  · exact hplace
  · exact ⟨hplace.1, hh.kept.trans hplace.2, hremovable⟩

end Action

end ValueHeap
