import Mathlib.Data.String.Basic
import Mathlib.Order.Compare

/-!
# Forms

Comparison reads off a value less than the value is: which number it is but not in which of the
numeric types, which entries a dict has but not in which order they went in.  A *form* is a tree
that keeps just this.  Forms are linearly ordered, so whatever compares values as their forms
compare inherits the laws of a linear order.

## What is here

* `Form.Label` — what is written at a node, and `Form.Label.order`, which compares labels field by
  field.
* `Form` — a label over a list of forms.
* `Form.order` — labels first, and then the parts from left to right.  It is a linear order: the
  `Ord` instance of forms is lawful in the sense of `Std`.
* `Form.sort` — forms in order.  Two lists are sorted to the same list exactly when they are
  permutations of each other.
-/

set_option autoImplicit false

namespace ValueHeap

open Std

/-! ## Labels -/

/-- What is written at a node of a form. -/
structure Form.Label where
  /-- Where the node stands among nodes of other kinds. -/
  shelf : Nat
  /-- The name that is compared before anything else on a shelf. -/
  name : String
  /-- Numbers that tell nodes of one name apart. -/
  digits : List Int
  /-- A text that does so. -/
  text : String
deriving DecidableEq

namespace Form.Label

/-- Labels compare field by field. -/
def order : Label → Label → Ordering :=
  compareLex (compareOn shelf) <|
    compareLex (compareOn name) <| compareLex (compareOn digits) (compareOn text)

instance : TransCmp order :=
  inferInstanceAs (TransCmp (compareLex (compareOn shelf) _))

theorem order_def (a b : Label) :
    a.order b = (compare a.shelf b.shelf).then ((compare a.name b.name).then
      ((compare a.digits b.digits).then (compare a.text b.text))) :=
  rfl

theorem order_eq_iff {a b : Label} : a.order b = .eq ↔ a = b := by
  rw [order_def]
  simp only [Ordering.then_eq_eq, LawfulEqCmp.compare_eq_iff_eq]
  constructor
  · intro ⟨h₁, h₂, h₃, h₄⟩
    cases a
    cases b
    simp_all
  · rintro rfl
    exact ⟨rfl, rfl, rfl, rfl⟩

end Form.Label

/-! ## Forms and their order -/

/-- A tree of labels. -/
inductive Form where
  /-- A node with its parts. -/
  | node (label : Form.Label) (parts : List Form)

namespace Form

mutual

/-- Forms compare by their labels, and then part by part. -/
def order : Form → Form → Ordering
  | node a xs, node b ys => (a.order b).then (orderAll xs ys)

/-- Lists of forms compare from left to right; what ends first comes first. -/
def orderAll : List Form → List Form → Ordering
  | [], [] => .eq
  | [], _ :: _ => .lt
  | _ :: _, [] => .gt
  | x :: xs, y :: ys => (order x y).then (orderAll xs ys)

end

instance : Ord Form := ⟨order⟩

mutual

theorem order_swap : ∀ x y : Form, (order x y).swap = order y x
  | node a xs, node b ys => by
    rw [order, order, Ordering.swap_then, orderAll_swap xs ys, ← OrientedCmp.eq_swap]

theorem orderAll_swap : ∀ xs ys : List Form, (orderAll xs ys).swap = orderAll ys xs
  | [], [] => rfl
  | [], _ :: _ => rfl
  | _ :: _, [] => rfl
  | x :: xs, y :: ys => by
    rw [orderAll, orderAll, Ordering.swap_then, order_swap x y, orderAll_swap xs ys]

end

mutual

theorem order_eq_iff : ∀ x y : Form, order x y = .eq ↔ x = y
  | node a xs, node b ys => by
    rw [order, Ordering.then_eq_eq, Label.order_eq_iff, orderAll_eq_iff xs ys, node.injEq]

theorem orderAll_eq_iff : ∀ xs ys : List Form, orderAll xs ys = .eq ↔ xs = ys
  | [], [] => by simp [orderAll]
  | [], _ :: _ => by simp [orderAll]
  | _ :: _, [] => by simp [orderAll]
  | x :: xs, y :: ys => by
    rw [orderAll, Ordering.then_eq_eq, order_eq_iff x y, orderAll_eq_iff xs ys, List.cons.injEq]

end

mutual

theorem order_lt_trans : ∀ x y z : Form, order x y = .lt → order y z = .lt → order x z = .lt
  | node a xs, node b ys, node c zs => by
    intro hxy hyz
    rw [order, Ordering.then_eq_lt] at hxy hyz ⊢
    rcases hxy with hab | ⟨hab, hxy⟩ <;> rcases hyz with hbc | ⟨hbc, hyz⟩
    · exact Or.inl (TransCmp.lt_trans hab hbc)
    · rw [Label.order_eq_iff] at hbc
      exact Or.inl (hbc ▸ hab)
    · rw [Label.order_eq_iff] at hab
      exact Or.inl (hab ▸ hbc)
    · rw [Label.order_eq_iff] at hab hbc ⊢
      exact Or.inr ⟨hab.trans hbc, orderAll_lt_trans xs ys zs hxy hyz⟩

theorem orderAll_lt_trans : ∀ xs ys zs : List Form,
    orderAll xs ys = .lt → orderAll ys zs = .lt → orderAll xs zs = .lt
  | [], _, _ :: _ => by intros; rw [orderAll]
  | [], [], [] => by simp [orderAll]
  | _, _ :: _, [] => by simp [orderAll]
  | _ :: _, [], _ => by simp [orderAll]
  | x :: xs, y :: ys, z :: zs => by
    intro hxy hyz
    rw [orderAll, Ordering.then_eq_lt] at hxy hyz ⊢
    rcases hxy with hxy | ⟨heq, hxy⟩ <;> rcases hyz with hyz | ⟨heq', hyz⟩
    · exact Or.inl (order_lt_trans x y z hxy hyz)
    · rw [order_eq_iff y z] at heq'
      exact Or.inl (heq' ▸ hxy)
    · rw [order_eq_iff x y] at heq
      exact Or.inl (heq ▸ hyz)
    · rw [order_eq_iff] at heq heq' ⊢
      exact Or.inr ⟨heq.trans heq', orderAll_lt_trans xs ys zs hxy hyz⟩

end

instance : DecidableEq Form := fun x y => decidable_of_iff _ (order_eq_iff x y)

instance : LawfulEqOrd Form where
  compare_self := (order_eq_iff _ _).2 rfl
  eq_of_compare h := (order_eq_iff _ _).1 h

instance : TransOrd Form where
  eq_swap := (order_swap _ _).symm
  isLE_trans {x y z} hxy hyz := by
    rw [Ordering.isLE_iff_eq_lt_or_eq_eq] at hxy hyz ⊢
    rcases hxy with hxy | hxy <;> rcases hyz with hyz | hyz
    · exact Or.inl (order_lt_trans x y z hxy hyz)
    · exact Or.inl (LawfulEqCmp.eq_of_compare hyz ▸ hxy)
    · exact Or.inl (LawfulEqCmp.eq_of_compare hxy ▸ hyz)
    · exact Or.inr (LawfulEqCmp.eq_of_compare hxy ▸ hyz)

theorem compare_node (a b : Label) (xs ys : List Form) :
    compare (node a xs) (node b ys) = (a.order b).then (compare xs ys) := by
  have h : ∀ xs ys : List Form, orderAll xs ys = compare xs ys := by
    intro xs
    induction xs with
    | nil =>
      intro ys
      cases ys <;> rfl
    | cons x xs ih =>
      intro ys
      cases ys with
      | nil => rfl
      | cons y ys =>
        rw [orderAll, ih, List.compare_cons_cons]
        rfl
  rw [← h]
  rfl

/-- The nodes of one label compare as their parts do. -/
theorem compare_node_self (a : Label) (xs ys : List Form) :
    compare (node a xs) (node a ys) = compare xs ys := by
  rw [compare_node, (Label.order_eq_iff (a := a)).2 rfl, Ordering.eq_then]

/-- Nodes with different labels compare as these do. -/
theorem compare_node_of_ne {a b : Label} (h : a ≠ b) (xs ys : List Form) :
    compare (node a xs) (node b ys) = a.order b := by
  have := mt Label.order_eq_iff.1 h
  rw [compare_node]
  cases hab : a.order b with
  | eq => exact absurd hab this
  | lt => rfl
  | gt => rfl

/-! ## Sorting -/

/-- Forms in order. -/
def sort (xs : List Form) : List Form :=
  xs.mergeSort fun x y => (compare x y).isLE

theorem sort_perm (xs : List Form) : (sort xs).Perm xs :=
  List.mergeSort_perm _ _

theorem sort_pairwise (xs : List Form) : (sort xs).Pairwise fun x y => (compare x y).isLE :=
  List.pairwise_mergeSort (fun _ _ _ => TransCmp.isLE_trans)
    (fun x y => by
      rw [OrientedOrd.eq_swap (a := y)]
      cases compare x y <;> rfl)
    xs

/-- Two lists are sorted to the same list exactly when they hold the same forms equally often. -/
theorem sort_eq_iff {xs ys : List Form} : sort xs = sort ys ↔ xs.Perm ys := by
  constructor
  · intro h
    exact (sort_perm xs).symm.trans (h ▸ sort_perm ys)
  · intro h
    refine List.Perm.eq_of_pairwise ?_ (sort_pairwise xs) (sort_pairwise ys)
      ((sort_perm xs).trans (h.trans (sort_perm ys).symm))
    intro x y _ _ hxy hyx
    exact LawfulEqCmp.eq_of_compare (OrientedCmp.isLE_antisymm hxy hyx)

end Form

end ValueHeap
