import ValueHeap.Proofs.Heap.Accounts
import ValueHeap.Outcome

/-!
# What an operation has done when it ends well

Where an operation on a heap ends in a result, every part of it has, in order, and each went on from
the heap that the one before it left.  So what holds at the end follows piece by piece, and nothing
has to be known about errors or about faults.

## What is here

* `Outcome.Yields` — what holds of the result and the heap, if there is a result.
* `Action.yields_bind`, `Action.yields_onError` and their like — one rule for each way of putting
  operations together.
* `Action.yields_retain` and `Action.yields_allocate` — a reference taken, and contents placed.
-/

set_option autoImplicit false

namespace ValueHeap

/-- The outcome is a result and a heap as `P` says, or no result. -/
def Outcome.Yields {α : Type} (P : α → Heap → Prop) (o : Outcome α) : Prop :=
  ∀ a, o.result = .ok a → P a o.heap

namespace Action

variable {α β : Type} {P Q : α → Heap → Prop} {h : Heap} {x : Action α}

/-! ## Operations put together -/

theorem yields_mono {o : Outcome α} (ho : o.Yields P) (hgood : ∀ a k, P a k → Q a k) :
    o.Yields Q :=
  fun a ha => hgood a _ (ho a ha)

theorem yields_pure {a : α} (ha : P a h) : ((pure a : Action α) h).Yields P := by
  rintro _ ⟨⟩
  exact ha

theorem yields_raise {c : Cause} : ((raise c : Action α) h).Yields P := nofun

theorem yields_bind {mid : β → Heap → Prop} {y : Action β} {f : β → Action α}
    (hy : (y h).Yields mid) (hf : ∀ b k, mid b k → (f b k).Yields P) :
    ((y >>= f) h).Yields P := by
  show (Action.bind y f h).Yields P
  rw [Action.bind]
  generalize y h = o at hy ⊢
  rcases o with ⟨_ | b, k, es⟩
  · rintro _ ⟨⟩
  · exact hf b k (hy b rfl)

/-- What is cleaned up behind an error does not matter to a result. -/
theorem yields_onError {cleanup : Action Unit} (hx : (x h).Yields P) :
    (onError x cleanup h).Yields P := by
  rw [onError]
  generalize x h = o at hx ⊢
  rcases o with ⟨(e | _) | a, k, es⟩
  · simp only
    generalize cleanup k = o
    rcases o with ⟨_ | _, k', fs⟩ <;> nofun
  · nofun
  · exact hx

theorem yields_look {f : Heap → Except Fault α} (hf : ∀ a, f h = .ok a → P a h) :
    (look f h).Yields P := by
  rw [look]
  cases hfh : f h with
  | error _ => nofun
  | ok a =>
    rintro _ ⟨⟩
    exact hf a hfh

theorem yields_report {e : Event} {P : Unit → Heap → Prop} (hg : P () h) :
    (report e h).Yields P := by
  rintro _ ⟨⟩
  exact hg

theorem yields_oneLevelDown
    (hx : (x { h with depth := h.depth + 1 }).Yields fun a k => P a k.leave) :
    (oneLevelDown x h).Yields P := by
  rw [oneLevelDown]
  generalize x { h with depth := h.depth + 1 } = o at hx ⊢
  rcases o with ⟨(_ | _) | a, k, es⟩
  · nofun
  · nofun
  · exact hx

/-! ## References and contents -/

theorem yields_change {f : Heap → Except Fault α × Heap}
    (hf : ∀ a, (f h).1 = .ok a → P a (f h).2) : (change f h).Yields P := by
  rw [change]
  generalize f h = o at hf ⊢
  rcases o with ⟨_ | a, k⟩
  · nofun
  · rintro _ ⟨⟩
    exact hf a rfl

/-- A value is taken once more: where it has a slot, the slot is in use and counts one reference
more. -/
theorem yields_retain {v : Value} {P : Value → Heap → Prop}
    (himmediate : v.slot? = none → P v h)
    (hslot : ∀ s c, v = .ref s → h.cell? s = some c →
      P v (h.put s { c with refcount := c.refcount + 1 })) :
    (retain v h).Yields P := by
  cases v with
  | ref s =>
    refine yields_bind (yields_change (P := fun _ => P (.ref s)) fun _ hok => ?_)
      fun _ k hk => yields_pure hk
    rw [Heap.retain] at hok ⊢
    cases hc : h.access .read s with
    | error f =>
      rw [hc] at hok
      cases hok
    | ok c => exact hslot s c rfl (Heap.access_eq_ok_iff.1 hc)
  | _ => exact yields_pure (himmediate rfl)

/-- Contents are placed on other accounts. -/
theorem yields_allocate {p : Payload} {P : Value → Heap → Prop}
    (hplace : ∀ budget, P (.ref (Heap.place { h with budget } p).1)
      (Heap.place { h with budget } p).2) :
    (allocate p h).Yields P := by
  rw [allocate, Heap.allocate]
  cases h.budget.charge p.size with
  | ok budget =>
    rintro _ ⟨⟩
    exact hplace budget
  | error e =>
    cases e with
    | fault f => nofun
    | error e =>
      rcases h.release p.children with ⟨_ | _, k⟩ <;> nofun

end Action

end ValueHeap
