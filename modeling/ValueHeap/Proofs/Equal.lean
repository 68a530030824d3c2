import ValueHeap.Proofs.Compare.Equality
import ValueHeap.Proofs.Counts

/-!
# Equal values hash equal

In whatever can come about, values that are equal have the same hash or none: rich equality says
whether two values have the same form, and the hash of a value goes with its form.

## What is here

* `Heap.Equal` — values that are the same or equal.
* `keyHash_eq_of_equal` — their hashes.
-/

set_option autoImplicit false

namespace ValueHeap

namespace Heap

variable {h : Heap} {a b c : Value}

/-- The values are the same, or rich equality says so, in either mode and with any number of levels
left. -/
def Equal (h : Heap) (a b : Value) : Prop :=
  a.isIdentical b = true ∨
    ∃ mode levels, (Compare.within h mode levels a b .eq).result = .ok true

theorem equal_of_richCompare {mode : Mode} (hab : (richCompare mode a b .eq h).result = .ok true) :
    h.Equal a b :=
  Or.inr ⟨mode, h.levelsLeft, Action.result_consult_eq_ok.1 hab⟩

theorem Equal.alike (hk : h.Keyed) (hab : h.Equal a b) : h.Alike a b := by
  by_cases heq : a = b
  · subst heq
    exact Alike.refl h a
  rcases hab with hid | ⟨mode, levels, hab⟩
  · exact absurd (Value.isIdentical_iff.1 hid) heq
  · exact settles_eq_true.1 (Compare.within_eqSound hk mode levels a b true hab heq)

/-- The hash of a value with the same form as another one that has a hash. -/
theorem keyHash_of_alike {word : UInt64} (hc : h.Coherent) (hb : h.Names b) (hab : h.Alike a b)
    (ha : h.keyHash a = .ok (some word)) : h.keyHash b = .ok (some word) :=
  (keyHash_eq_some_iff hc hb).2 ((Hashes.of_keyHash ha).of_form_eq hab)

end Heap

/-- **Equal values hash equal.**  In whatever can come about, values in use that are the same, or
that rich equality calls equal in either mode, have the same hash, or both have none. -/
theorem keyHash_eq_of_equal {budget : Budget} {c : Custody} (hc : Reachable budget c)
    {a b : Value} (ha : c.heap.Names a) (hb : c.heap.Names b)
    (hab : a.isIdentical b = true ∨
      ∃ mode, (richCompare mode a b .eq c.heap).result = .ok true) :
    ∃ hash, c.heap.keyHash a = .ok hash ∧ c.heap.keyHash b = .ok hash := by
  have hcoherent := hc.sound.coherent
  have halike : c.heap.Alike a b := by
    refine Heap.Equal.alike hcoherent.keyed ?_
    rcases hab with hid | ⟨mode, hab⟩
    · exact Or.inl hid
    · exact Heap.equal_of_richCompare hab
  obtain ⟨r, hr⟩ := Heap.exists_keyHash hcoherent ha
  obtain ⟨r', hr'⟩ := Heap.exists_keyHash hcoherent hb
  refine ⟨r, hr, ?_⟩
  cases r with
  | some word => exact Heap.keyHash_of_alike hcoherent hb halike hr
  | none =>
    cases r' with
    | none => exact hr'
    | some word =>
      -- a hash of the one would be a hash of the other
      have hother := Heap.keyHash_of_alike hcoherent ha halike.symm hr'
      rw [hr] at hother
      cases hother

/-- The tuples of the truth value `True` and of the float `1.0` are equal. -/
theorem keyHash_eq_of_true_and_one :
    ∃ c : Custody, Reachable .untracked c ∧ c.heap.find? 0 = some (.tuple [.bool true]) ∧
      c.heap.find? 1 = some (.tuple [.float ⟨0x3ff0000000000000⟩]) ∧
      ∃ hash, c.heap.keyHash (.ref 0) = .ok hash ∧ c.heap.keyHash (.ref 1) = .ok hash := by
  let o : Object := .tuple [.tuple [.bool true], .tuple [.float ⟨0x3ff0000000000000⟩]]
  let c : Custody := Custody.after ⟨Heap.empty .untracked, 0⟩ (.build o) [.ref 2]
  have hc : Reachable .untracked c :=
    .result [.ref 2] .start (Request.permitted_build o _) rfl
  have htrue : c.heap.Names (.ref 0) := by
    intro s hs
    cases hs
    rfl
  have hone : c.heap.Names (.ref 1) := by
    intro s hs
    cases hs
    rfl
  have heq : (richCompare .strict (.ref 0) (.ref 1) .eq c.heap).result = .ok true := by
    decide +kernel
  exact ⟨c, hc, rfl, rfl, keyHash_eq_of_equal hc htrue hone (Or.inr ⟨.strict, heq⟩)⟩

end ValueHeap
