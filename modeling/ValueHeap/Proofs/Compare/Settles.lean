import Mathlib.Order.Filter.Finite
import ValueHeap.Proofs.Answer
import ValueHeap.Proofs.Form.Hash

/-!
# What it takes for a comparison to be right

The result of a comparison is right if it is what the operator says of the forms of the two values.
A form is only known down to a depth, so this is asked of all depths from some depth on.

## What is here

* `Heap.Settles` — a result is right for two values under an operator.
* `Heap.Alike` and `Heap.Apart` — the two values have the same form, or different ones.
* `Heap.KeysFit` — stored keys carry their hashes, and no two of them are alike.  `Heap.Keyed` says
  so of every dict and set in use.
* `Compare.EqSound` — a judge whose results of `==` are right, unless it is shown the same value
  twice: a NaN differs from itself.
-/

set_option autoImplicit false

namespace ValueHeap

open Filter Std

/-! ## Identity -/

namespace Value

theorem identity_injective : Function.Injective identity := by
  intro a b h
  cases a <;> cases b <;> simp [identity] at h ⊢
  · next x y => cases x <;> cases y <;> simp_all
  · next m n => rw [← Int64.toInt64_toUInt64 m, h, Int64.toInt64_toUInt64]
  · next x y =>
    cases x
    cases y
    exact congrArg _ h
  · next s t =>
    refine BuiltinType.rank_inj ?_
    have hs : s.rank < 2 ^ 64 := by cases s <;> decide
    have ht : t.rank < 2 ^ 64 := by cases t <;> decide
    rw [← UInt64.toNat_ofNat_of_lt' hs, ← UInt64.toNat_ofNat_of_lt' ht, h]
  · exact h

theorem isIdentical_iff {a b : Value} : a.isIdentical b = true ↔ a = b := by
  rw [isIdentical, beq_iff_eq]
  exact identity_injective.eq_iff

theorem isIdentical_eq_false {a b : Value} (h : a ≠ b) : a.isIdentical b = false :=
  Bool.eq_false_iff.2 (mt isIdentical_iff.1 h)

end Value

/-! ## From some depth on -/

theorem eventually_of_succ {P : Nat → Prop} (h : ∀ᶠ n in atTop, P (n + 1)) :
    ∀ᶠ n in atTop, P n := by
  obtain ⟨m, hm⟩ := eventually_atTop.1 h
  refine eventually_atTop.2 ⟨m + 1, fun n hn => ?_⟩
  obtain ⟨k, rfl⟩ := Nat.exists_eq_add_of_le' (Nat.le_trans (Nat.le_add_left 1 m) hn)
  exact hm k (by omega)

theorem eventually_forall_mem {α : Type} {P : Nat → α → Prop} {xs : List α}
    (h : ∀ x ∈ xs, ∀ᶠ n in atTop, P n x) : ∀ᶠ n in atTop, ∀ x ∈ xs, P n x :=
  (eventually_all_finite xs.finite_toSet).2 h

theorem eventually_pairwise {α : Type} {R : Nat → α → α → Prop} {xs : List α}
    (h : xs.Pairwise fun x y => ∀ᶠ n in atTop, R n x y) :
    ∀ᶠ n in atTop, xs.Pairwise (R n) := by
  induction h with
  | nil => exact Eventually.of_forall fun _ => .nil
  | cons hx _ ih =>
    filter_upwards [eventually_forall_mem hx, ih] with n hhead htail
    exact .cons hhead htail

/-- A result that says from some depth on whether something holds says whether it holds from some
depth on. -/
theorem eq_true_iff_eventually {r : Bool} {P : Nat → Prop}
    (h : ∀ᶠ n in atTop, (r = true ↔ P n)) : r = true ↔ ∀ᶠ n in atTop, P n := by
  rw [← eventually_congr h, eventually_const]

namespace Heap

/-- A result is what an operator says of the forms of two values. -/
def Settles (h : Heap) (op : Operator) (r : Bool) (a b : Value) : Prop :=
  ∀ᶠ n in atTop, r = op.holds (compare (h.form n a) (h.form n b))

/-- Two values have the same form. -/
def Alike (h : Heap) (a b : Value) : Prop := ∀ᶠ n in atTop, h.form n a = h.form n b

/-- Two values have different forms. -/
def Apart (h : Heap) (a b : Value) : Prop := ∀ᶠ n in atTop, h.form n a ≠ h.form n b

variable {h : Heap} {a b c : Value} {op : Operator} {r : Bool}

theorem Alike.refl (h : Heap) (a : Value) : h.Alike a a :=
  Eventually.of_forall fun _ => rfl

theorem Alike.symm (hab : h.Alike a b) : h.Alike b a :=
  hab.mono fun _ => Eq.symm

theorem Alike.trans (hab : h.Alike a b) (hbc : h.Alike b c) : h.Alike a c := by
  filter_upwards [hab, hbc] with n using Eq.trans

theorem Apart.not_alike (hab : h.Apart a b) : ¬h.Alike a b := by
  intro halike
  obtain ⟨n, hne, heq⟩ := (hab.and halike).exists
  exact hne heq

theorem holds_eq_iff {o : Ordering} : r = Operator.eq.holds o ↔ (r = true ↔ o = .eq) := by
  cases r <;> cases o <;> decide

theorem settles_eq_iff :
    h.Settles .eq r a b ↔ ∀ᶠ n in atTop, (r = true ↔ h.form n a = h.form n b) := by
  simp only [Settles, holds_eq_iff, Std.compare_eq_iff_eq]

theorem settles_eq_true : h.Settles .eq true a b ↔ h.Alike a b := by
  simp [settles_eq_iff, Alike]

theorem settles_eq_false : h.Settles .eq false a b ↔ h.Apart a b := by
  simp [settles_eq_iff, Apart]

/-- Swapping the values turns the operator around. -/
theorem Settles.swap (hr : h.Settles op.swapped r b a) : h.Settles op r a b := by
  filter_upwards [hr] with n hn
  rw [hn, OrientedOrd.eq_swap, Operator.holds_swapped]

theorem Settles.refl (h : Heap) (a : Value) (op : Operator) : h.Settles op (op.holds .eq) a a :=
  Eventually.of_forall fun n => by rw [compare_self]

/-- A result that the labels decide is right. -/
theorem settles_of_label_ne (hl : h.label a ≠ h.label b)
    (hr : r = op.holds ((h.label a).order (h.label b))) : h.Settles op r a b :=
  Eventually.of_forall fun n => by rw [compare_form_of_label_ne hl, hr]

section Contents

variable {s t : Slot} {p q : Payload}

/-- For contents with the same label, a result that the parts decide is right. -/
theorem settles_of_parts (hp : h.find? s = some p) (hq : h.find? t = some q)
    (hl : h.labelOf s p = h.labelOf t q)
    (hr : ∀ᶠ n in atTop,
      r = op.holds (compare (p.formParts (h.form n)) (q.formParts (h.form n)))) :
    h.Settles op r (.ref s) (.ref t) := by
  refine eventually_of_succ (hr.mono fun n hn => ?_)
  rw [form_ref hp, form_ref hq, hl, Form.compare_node_self, hn]

/-- For contents without parts, a result that the labels decide is right. -/
theorem settles_of_leaves (hp : h.find? s = some p) (hq : h.find? t = some q)
    (hpn : ∀ form, p.formParts form = []) (hqn : ∀ form, q.formParts form = [])
    (hr : r = op.holds ((h.labelOf s p).order (h.labelOf t q))) :
    h.Settles op r (.ref s) (.ref t) := by
  refine eventually_of_succ (Eventually.of_forall fun n => ?_)
  rw [form_ref hp, form_ref hq, hpn, hqn, Form.compare_node, List.compare_nil_nil,
    Ordering.then_eq, hr]

end Contents

/-! ## Numbers -/

theorem form_of_number {v : Value} {m : Number} (hm : Compare.numberOf h v = .ok (some m))
    (n : Nat) : h.form n v = .node (.number v.tag m) [] := by
  cases v with
  | ref s =>
    rw [Compare.numberOf] at hm
    cases hp : h.read s with
    | error f => simp [hp, Except.map] at hm
    | ok p =>
      have hfind := read_eq_ok_iff.1 hp
      have hl := label_ref hfind
      cases p <;> simp [hp, Except.map] at hm <;> subst hm <;> cases n <;>
        first | rw [form_ref hfind]; rfl | rw [form, hl]; rfl
  | none => cases hm
  | ellipsis => cases hm
  | builtin ty => cases hm
  | _ => cases hm; cases n <;> rfl

theorem label_number_order {m n : Number} {s t : Nat} :
    (Form.Label.number s m).order (.number t n) = compare (m.digits s) (n.digits t) := by
  simp [Form.Label.order_def, Form.Label.number]

theorem compare_of_numbers {m n : Number} (hm : Compare.numberOf h a = .ok (some m))
    (hn : Compare.numberOf h b = .ok (some n)) (depth : Nat) :
    compare (h.form depth a) (h.form depth b) = compare (m.digits a.tag) (n.digits b.tag) := by
  rw [form_of_number hm, form_of_number hn, Form.compare_node, List.compare_nil_nil,
    Ordering.then_eq, label_number_order]

/-- Two numbers with the same digits and a NaN in them are one value. -/
theorem eq_of_digits_of_isNaN {m n : Number} (hm : Compare.numberOf h a = .ok (some m))
    (hn : Compare.numberOf h b = .ok (some n)) (hnan : m.isNaN = true)
    (hd : m.digits a.tag = n.digits b.tag) : a = b := by
  obtain ⟨rfl, htag⟩ := Number.eq_of_digits_of_isNaN hnan hd
  have hcases {v : Value} (hv : Compare.numberOf h v = .ok (some m)) :
      (m.isComplex = true ∧ v = .ref v.tag) ∨ ∃ x, m = .float x ∧ v = .float x := by
    cases v with
    | ref s =>
      rw [Compare.numberOf] at hv
      cases hp : h.read s with
      | error f => simp [hp, Except.map] at hv
      | ok p =>
        cases p <;> simp [hp, Except.map] at hv <;> subst hv
        · simp [Number.isNaN] at hnan
        · exact Or.inl ⟨rfl, rfl⟩
    | float x => exact Or.inr ⟨x, (Option.some.inj (Except.ok.inj hv)).symm, rfl⟩
    | bool x => cases hv; simp [Number.isNaN] at hnan
    | int x => cases hv; simp [Number.isNaN] at hnan
    | _ => cases hv
  rcases hcases hm with ⟨hc, ha⟩ | ⟨x, rfl, ha⟩ <;> rcases hcases hn with ⟨hc', hb⟩ | ⟨y, hy, hb⟩
  · rw [ha, hb, htag hc]
  · simp [hy, Number.isComplex] at hc
  · simp [Number.isComplex] at hc'
  · rw [ha, hb, Number.float.inj hy]

/-! ## Stored keys -/

/-- Stored keys carry their hashes, and no two of them are alike. -/
structure KeysFit (h : Heap) (keys : List HashedKey) : Prop where
  hashes : ∀ k ∈ keys, h.Hashes k.value k.hash
  apart : keys.Pairwise fun k l => h.Apart k.value l.value

end Heap

/-- The keys of a dict, or the elements of a set. -/
def Payload.keys : Payload → List HashedKey
  | dict entries => entries.map Entry.key
  | set elements => elements
  | _ => []

/-- The keys of every dict and the elements of every set are as they should be. -/
def Heap.Keyed (h : Heap) : Prop := ∀ s p, h.find? s = some p → h.KeysFit p.keys

namespace Compare

/-- The results of `==` are right, except when a value is compared with itself. -/
def EqSound (h : Heap) (judge : Judge) : Prop :=
  ∀ a b r, (judge a b .eq).result = .ok r → a ≠ b → h.Settles .eq r a b

theorem sameOrEqual_settles {h : Heap} {judge : Judge} {a b : Value} {r : Bool}
    (hj : EqSound h judge) (hr : (sameOrEqual judge a b).result = .ok r) :
    h.Settles .eq r a b := by
  rw [sameOrEqual] at hr
  by_cases hab : a = b
  · subst hab
    rw [if_pos (Value.isIdentical_refl a), Answer.result_pure_eq_ok] at hr
    exact hr ▸ Heap.Settles.refl h a .eq
  · rw [if_neg (by simp [Value.isIdentical_eq_false hab])] at hr
    exact hj a b r hr hab

end Compare

end ValueHeap
