import ValueHeap.Outcome

/-!
# What an answer comes from

An answer that was put together from others has a result only if these have one.  The equations
here take such an answer apart, one for each way in which answers are put together.

## What is here

* `Halt.failure` — why an operation stopped, as its caller sees it.
* `Answer.result_bind_eq_ok` and its like — where the result of an answer comes from.
* `Answer.Faultless` — an answer that ends in a result or in an error, but not in a fault.
-/

set_option autoImplicit false

namespace ValueHeap

theorem bind_eq_ok {ε α β : Type} {x : Except ε α} {f : α → Except ε β} {b : β} :
    x >>= f = .ok b ↔ ∃ a, x = .ok a ∧ f a = .ok b := by
  cases x <;> simp [bind, Except.bind]

theorem map_eq_ok {ε α β : Type} {x : Except ε α} {f : α → β} {b : β} :
    f <$> x = .ok b ↔ ∃ a, x = .ok a ∧ f a = b := by
  cases x <;> simp [Functor.map, Except.map]

/-- Why an operation stopped, without the levels that were left. -/
def Halt.failure : Halt → Failure
  | error e => .error e
  | fault f _ => .fault f

namespace Answer

variable {α β : Type}

/-! ## Results -/

theorem result_bind_eq_ok {x : Answer α} {f : α → Answer β} {b : β} :
    (x >>= f).result = .ok b ↔ ∃ a, x.result = .ok a ∧ (f a).result = .ok b := by
  rw [result_bind]
  cases x.result <;> simp [Except.bind]

/-- The same for a choice between two answers, which is made before going on. -/
theorem result_ite_bind_eq_ok {c : Prop} [Decidable c] {x y : Answer α} {f : α → Answer β}
    {b : β} :
    (if c then x >>= f else y >>= f).result = .ok b ↔
      ∃ a, (if c then x else y).result = .ok a ∧ (f a).result = .ok b := by
  split <;> exact result_bind_eq_ok

theorem result_map (x : Answer α) (f : α → β) : (f <$> x).result = x.result.map f := by
  rw [map_eq_pure_bind, result_bind]
  cases x.result <;> rfl

theorem result_map_eq_ok {x : Answer α} {f : α → β} {b : β} :
    (f <$> x).result = .ok b ↔ ∃ a, x.result = .ok a ∧ f a = b := by
  rw [result_map]
  cases x.result <;> simp [Except.map]

theorem result_pure_eq_ok {a b : α} : (pure a : Answer α).result = .ok b ↔ a = b := by
  rw [result_pure, Except.ok.injEq]

theorem result_look_eq_ok {levels : Nat} {x : Except Fault α} {a : α} :
    (look levels x).result = .ok a ↔ x = .ok a := by
  cases x with
  | ok b => exact result_pure_eq_ok.trans (Except.ok.injEq b a).symm.to_iff
  | error f => simp [look]

theorem result_raise_ne_ok {c : Cause} {a : α} : (raise c : Answer α).result ≠ .ok a := by
  simp [raise, fail]

theorem result_refuse_ne_ok {limit : Nat} {e : RunError} {a : α} :
    (refuse limit e : Answer α).result ≠ .ok a := by
  simp [refuse]

/-- One of two ways to decide a question has decided it. -/
theorem result_decideOr_eq_ok {first : Answer (Option α)} {second : Answer α} {a : α} :
    (decideOr first second).result = .ok a ↔
      first.result = .ok (some a) ∨ (first.result = .ok none ∧ second.result = .ok a) := by
  rw [decideOr, result_bind_eq_ok]
  constructor
  · rintro ⟨o, ho, ha⟩
    cases o with
    | none => exact Or.inr ⟨ho, ha⟩
    | some b => exact Or.inl (by rw [ho, result_pure_eq_ok.1 ha])
  · rintro (hfirst | ⟨hfirst, hsecond⟩)
    · exact ⟨some a, hfirst, rfl⟩
    · exact ⟨none, hfirst, hsecond⟩

/-- Looking something up that is there. -/
theorem look_bind {levels : Nat} {x : Except Fault α} {a : α} (hx : x = .ok a)
    (f : α → Answer β) : look levels x >>= f = f a := by
  rw [hx]
  exact pure_bind_eq a f

theorem result_look_bind {levels : Nat} {x : Except Fault α} {a : α} (hx : x = .ok a)
    (f : α → Answer β) : (look levels x >>= f).result = (f a).result :=
  congrArg result (look_bind hx f)

theorem result_decideOr_of_some {first : Answer (Option α)} {second : Answer α} {a : α}
    (hfirst : first.result = .ok (some a)) : (decideOr first second).result = .ok a :=
  result_decideOr_eq_ok.2 (Or.inl hfirst)

/-- A question that is left open is passed on. -/
theorem result_decideOr_of_none {first : Answer (Option α)} {second : Answer α}
    (hfirst : first.result = .ok none) : (decideOr first second).result = second.result := by
  rw [decideOr, result_bind, hfirst]
  rfl

/-- A question that an answer always decides is decided by it. -/
theorem result_decideOr_of_map {first : Answer (Option α)} {second x : Answer α}
    (hfirst : first.result = (some <$> x).result) :
    (decideOr first second).result = x.result := by
  rw [decideOr, result_bind, hfirst, result_map]
  cases x.result <;> rfl

theorem exists_decideOr {first : Answer (Option α)} {second : Answer α}
    (hfirst : ∃ o, first.result = .ok o) (hsecond : ∃ a, second.result = .ok a) :
    ∃ a, (decideOr first second).result = .ok a := by
  obtain ⟨o, ho⟩ := hfirst
  cases o with
  | none => exact hsecond.imp fun a ha => result_decideOr_eq_ok.2 (Or.inr ⟨ho, ha⟩)
  | some a => exact ⟨a, result_decideOr_of_some ho⟩

/-! ## Faults -/

/-- The answer is a result or an error. -/
def Faultless (x : Answer α) : Prop := ∀ f levels, x.result ≠ .error (.fault f levels)

namespace Faultless

theorem pure (a : α) : (Pure.pure a : Answer α).Faultless := by
  intro f levels h
  cases h

theorem bind {x : Answer α} {f : α → Answer β} (hx : x.Faultless)
    (hf : ∀ a, x.result = .ok a → (f a).Faultless) : (x >>= f).Faultless := by
  intro fault levels h
  rw [result_bind] at h
  cases hr : x.result with
  | ok a =>
    rw [hr] at h
    exact hf a hr fault levels h
  | error e =>
    rw [hr] at h
    cases h
    exact hx fault levels hr

theorem look {levels : Nat} {x : Except Fault α} {a : α} (hx : x = .ok a) :
    (Answer.look levels x).Faultless := by
  rw [hx]
  exact .pure a

theorem raise (c : Cause) : (Answer.raise c : Answer α).Faultless := by
  intro f levels h
  cases h

theorem report (e : Event) : (Answer.report e).Faultless := by
  intro f levels h
  cases h

theorem refuse (limit : Nat) (e : RunError) : (Answer.refuse limit e : Answer α).Faultless := by
  intro f levels h
  cases h

end Faultless

end Answer

end ValueHeap
