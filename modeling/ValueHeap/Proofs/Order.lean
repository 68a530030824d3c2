import ValueHeap.Proofs.Compare.TotalOrder
import ValueHeap.Proofs.Counts

/-!
# The order of total mode

Total mode orders the values in which no set, no complex number and no NaN occurs: its operators say
how forms compare, and forms are totally ordered.

## What is here

* `Heap.Says` — what an operator says of two values in total mode.
* `Heap.Orders` — the laws of a total order.
* `richCompare_orders` — they hold in whatever can come about.
-/

set_option autoImplicit false

namespace ValueHeap

open Filter Std

namespace Heap

variable {h : Heap} {op : Operator} {a b : Value} {r : Bool}

/-- An operator says so of two values in total mode. -/
def Says (h : Heap) (op : Operator) (a b : Value) (r : Bool) : Prop :=
  (richCompare .total a b op h).result = .ok r

theorem Says.settles (hk : h.Keyed) (ha : h.Orderable a) (hb : h.Orderable b)
    (hr : h.Says op a b r) : h.Settles op r a b :=
  Compare.within_orderSound hk h.levelsLeft a b op r ha hb (Action.result_consult_eq_ok.1 hr)

theorem Says.below (hk : h.Keyed) (ha : h.Orderable a) (hb : h.Orderable b)
    (hab : h.Says .lt a b true) : ∀ᶠ n in atTop, compare (h.form n a) (h.form n b) = .lt :=
  (hab.settles hk ha hb).mono fun _ hn => beq_iff_eq.1 hn.symm

theorem Says.alike (hk : h.Keyed) (ha : h.Orderable a) (hb : h.Orderable b)
    (hab : h.Says .eq a b true) : h.Alike a b :=
  settles_eq_true.1 (hab.settles hk ha hb)

/-- It is enough to see one value below another at all great depths. -/
theorem Says.eq_true (hk : h.Keyed) (ha : h.Orderable a) (hb : h.Orderable b)
    (hab : h.Says .lt a b r) (hlt : ∀ᶠ n in atTop, compare (h.form n a) (h.form n b) = .lt) :
    r = true := by
  obtain ⟨n, hn, hlt⟩ := ((hab.settles hk ha hb).and hlt).exists
  rw [hn, hlt]
  rfl

/-- The operators, where they say anything, obey the laws of a total order on the values that a
predicate admits. -/
structure Orders (h : Heap) (good : Value → Prop) : Prop where
  /-- Exactly one of `<`, `==` and `>` holds. -/
  trichotomy : ∀ {a b lt eq gt}, good a → good b → h.Says .lt a b lt → h.Says .eq a b eq →
    h.Says .gt a b gt → (lt = true ∧ eq = false ∧ gt = false) ∨
      (lt = false ∧ eq = true ∧ gt = false) ∨ (lt = false ∧ eq = false ∧ gt = true)
  le_iff : ∀ {a b le lt eq}, good a → good b → h.Says .le a b le → h.Says .lt a b lt →
    h.Says .eq a b eq → (le = true ↔ lt = true ∨ eq = true)
  lt_iff_gt : ∀ {a b lt gt}, good a → good b → h.Says .lt a b lt → h.Says .gt b a gt →
    (lt = true ↔ gt = true)
  trans : ∀ {a b c lt}, good a → good b → good c → h.Says .lt a b true → h.Says .lt b c true →
    h.Says .lt a c lt → lt = true
  eq_lt : ∀ {a b c lt}, good a → good b → good c → h.Says .eq a b true → h.Says .lt b c true →
    h.Says .lt a c lt → lt = true
  lt_eq : ∀ {a b c lt}, good a → good b → good c → h.Says .lt a b true → h.Says .eq b c true →
    h.Says .lt a c lt → lt = true

end Heap

/-- **Total mode is a total order** on the values in which no set, no complex number and no NaN
occurs, in whatever can come about. -/
theorem richCompare_orders {budget : Budget} {c : Custody} (hc : Reachable budget c) :
    c.heap.Orders c.heap.Orderable := by
  have hk := hc.sound.coherent.keyed
  constructor
  case trichotomy =>
    intro a b lt eq gt ha hb hlt heq hgt
    obtain ⟨n, hlt, heq, hgt⟩ := ((hlt.settles hk ha hb).and
      ((heq.settles hk ha hb).and (hgt.settles hk ha hb))).exists
    rw [hlt, heq, hgt]
    cases compare (c.heap.form n a) (c.heap.form n b) <;> decide
  case le_iff =>
    intro a b le lt eq ha hb hle hlt heq
    obtain ⟨n, hle, hlt, heq⟩ := ((hle.settles hk ha hb).and
      ((hlt.settles hk ha hb).and (heq.settles hk ha hb))).exists
    rw [hle, hlt, heq]
    cases compare (c.heap.form n a) (c.heap.form n b) <;> decide
  case lt_iff_gt =>
    intro a b lt gt ha hb hlt hgt
    obtain ⟨n, hlt, hgt⟩ := ((hlt.settles hk ha hb).and (hgt.settles hk hb ha)).exists
    rw [hlt, hgt, OrientedOrd.eq_swap (a := c.heap.form n b)]
    cases compare (c.heap.form n a) (c.heap.form n b) <;> decide
  case trans =>
    intro a b d lt ha hb hd hab hbd had
    refine had.eq_true hk ha hd ?_
    filter_upwards [hab.below hk ha hb, hbd.below hk hb hd] with n using TransCmp.lt_trans
  case eq_lt =>
    intro a b d lt ha hb hd hab hbd had
    refine had.eq_true hk ha hd ?_
    filter_upwards [hab.alike hk ha hb, hbd.below hk hb hd] with n heq hlt
    rwa [heq]
  case lt_eq =>
    intro a b d lt ha hb hd hab hbd had
    refine had.eq_true hk ha hd ?_
    filter_upwards [hab.below hk ha hb, hbd.alike hk hb hd] with n hlt heq
    rwa [← heq]

/-- `None`, the integer 1 and a list with it are in this order. -/
theorem richCompare_orders_none_one_list :
    ∃ c : Custody, Reachable .untracked c ∧ c.heap.find? 0 = some (.list [.int 1]) ∧
      c.heap.Says .lt .none (.int 1) true ∧ c.heap.Says .lt (.int 1) (.ref 0) true ∧
      ∀ lt, c.heap.Says .lt .none (.ref 0) lt → lt = true := by
  let c : Custody := Custody.after ⟨Heap.empty .untracked, 0⟩ (.build (.list [.int 1])) [.ref 0]
  have hc : Reachable .untracked c :=
    .result [.ref 0] .start (Request.permitted_build (.list [.int 1]) _) rfl
  have horders := richCompare_orders hc
  have hnone : c.heap.Orderable .none := Heap.orderable_immediate rfl fun x hx => by cases hx
  have hone : c.heap.Orderable (.int 1) := Heap.orderable_immediate rfl fun x hx => by cases hx
  have hlist : c.heap.Orderable (.ref 0) :=
    Heap.orderable_ref (p := .list [.int 1]) rfl ⟨by decide, by decide⟩ fun x hx =>
      List.mem_singleton.1 hx ▸ hone
  have hlow : c.heap.Says .lt .none (.int 1) true := rfl
  have hhigh : c.heap.Says .lt (.int 1) (.ref 0) true := rfl
  exact ⟨c, hc, rfl, hlow, hhigh, fun lt hlt => horders.trans hnone hone hlist hlow hhigh hlt⟩

end ValueHeap
