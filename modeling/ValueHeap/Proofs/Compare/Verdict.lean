import ValueHeap.Proofs.Compare.DictOrder

/-!
# One verdict for all operators

Asked about the same pair under different operators, a comparison goes different ways, and some of
them may fail.  Those that give a result all say the same: there is one verdict on the pair, that
the left operand is below the right one, equal to it or above it, or that the two have no place
relative to each other, and each operator reads its result off it.

With the operands exchanged there is a verdict as well, and it is the mirror image of the first.  A
pair can only escape this where each operand counts as above the other, which is what the order of
dicts makes of what is neither below nor equal.

## What is here

* `Operator.reads` — what an operator makes of a verdict.
* `Compare.Abides`, `Compare.Verdicts` and `Compare.Balanced` — results that follow one verdict, and
  comparisons in both directions whose verdicts mirror each other.
* `Compare.Orderly` — results that read an order off, which balances them
  (`Compare.Balanced.of_orders`).
* `Number.verdict` — numbers, beside a complex one of which there is only equality.
* `Compare.FirstDifference` and `Compare.sequences_balanced` — sequences, which leave it to their
  first items that are neither the same nor equal.
* `Heap.Within` and `Compare.sets_balanced` — sets, which are ordered by inclusion.
-/

set_option autoImplicit false

namespace ValueHeap

open Filter Std

/-! ## Verdicts -/

/-- What an operator makes of a pair in this order, or of one in no order at all. -/
def Operator.reads (op : Operator) (v : Option Ordering) : Bool :=
  match v with
  | some o => op.holds o
  | none => op == .ne

theorem Operator.reads_swapped (op : Operator) (v : Option Ordering) :
    op.swapped.reads (v.map Ordering.swap) = op.reads v := by
  cases v with
  | none => cases op <;> rfl
  | some o => exact op.holds_swapped o

theorem Operator.reads_eq_iff {v : Option Ordering} :
    Operator.eq.reads v = true ↔ v = some .eq := by
  rcases v with _ | _ | _ | _ <;> simp [reads, holds]

theorem Operator.reads_ne (v : Option Ordering) : Operator.ne.reads v = !Operator.eq.reads v := by
  rcases v with _ | _ | _ | _ <;> rfl

theorem Operator.isEquality_iff {op : Operator} : op.isEquality = true ↔ op = .eq ∨ op = .ne := by
  cases op <;> decide

/-- An operator that asks whether a pair is equal gets its answer from the verdict. -/
theorem Operator.reads_of_isEquality {op : Operator} {equal : Bool} {v : Option Ordering}
    (hop : op.isEquality = true) (hequal : equal = true ↔ v = some .eq) :
    (equal == (op == .eq)) = op.reads v := by
  rw [← reads_eq_iff, ← Bool.eq_iff_iff] at hequal
  rcases isEquality_iff.1 hop with rfl | rfl
  · rw [hequal]
    cases eq.reads v <;> rfl
  · rw [reads_ne, hequal]
    cases eq.reads v <;> rfl

theorem map_swap_map_swap (v : Option Ordering) :
    (v.map Ordering.swap).map Ordering.swap = v := by
  rcases v with _ | _ | _ | _ <;> rfl

theorem map_swap_eq_some_eq {v : Option Ordering} :
    v.map Ordering.swap = some .eq ↔ v = some .eq := by
  rcases v with _ | _ | _ | _ <;> decide

namespace Compare

/-- The results under all operators follow one verdict. -/
def Abides (f : Operator → Answer Bool) (v : Option Ordering) : Prop :=
  ∀ op r, (f op).result = .ok r → r = op.reads v

/-- Some operator gives a result. -/
def Responds (f : Operator → Answer Bool) : Prop := ∃ op r, (f op).result = .ok r

/-- The comparisons of a pair in both directions follow these verdicts, which mirror each other.
Only where they clash may each operand be above the other. -/
structure Verdicts (f g : Operator → Answer Bool) (clash : Prop) (v w : Option Ordering) :
    Prop where
  left : Abides f v
  right : Abides g w
  mirror : w = v.map Ordering.swap ∨ (clash ∧ v = some .gt ∧ w = some .gt)

/-- There are verdicts on a pair in both directions. -/
def Balanced (f g : Operator → Answer Bool) (clash : Prop) : Prop :=
  ∃ v w, Verdicts f g clash v w

variable {f g f' g' : Operator → Answer Bool} {clash clash' : Prop} {v w : Option Ordering}

theorem Abides.of_silent (hf : ¬Responds f) (v : Option Ordering) : Abides f v :=
  fun op r hr => absurd ⟨op, r, hr⟩ hf

theorem Verdicts.eq_iff (h : Verdicts f g clash v w) : w = some .eq ↔ v = some .eq := by
  rcases h.mirror with hw | ⟨-, hv, hw⟩
  · rw [hw, map_swap_eq_some_eq]
  · rw [hv, hw]

/-- Where verdicts clash, there is a reason for it that a result has given. -/
theorem Verdicts.imp (h : Verdicts f g clash v w) (hc : Responds f → clash → clash') :
    ∃ v' w', Verdicts f g clash' v' w' ∧ (v' = some .eq ↔ v = some .eq) := by
  by_cases hf : Responds f
  · exact ⟨v, w, ⟨h.left, h.right, h.mirror.imp_right (And.imp_left (hc hf))⟩, Iff.rfl⟩
  · -- without a result on the left, its verdict can be taken from the right
    refine ⟨w.map Ordering.swap, w, ⟨.of_silent hf _, h.right, ?_⟩, ?_⟩
    · exact Or.inl (map_swap_map_swap w).symm
    · rw [map_swap_eq_some_eq, h.eq_iff]

/-- Comparisons that follow mirrored verdicts are balanced. -/
theorem Balanced.of_mirror (hf : Abides f v) (hg : Abides g (v.map Ordering.swap)) :
    Balanced f g clash :=
  ⟨v, _, hf, hg, Or.inl rfl⟩

theorem Balanced.imp (h : Balanced f g clash) (hc : Responds f → clash → clash') :
    Balanced f g clash' := by
  obtain ⟨v, w, hvw⟩ := h
  obtain ⟨v', w', hvw', -⟩ := hvw.imp hc
  exact ⟨v', w', hvw'⟩

/-- Comparisons whose results are all results of balanced ones are balanced. -/
theorem Balanced.of_results (h : Balanced f g clash)
    (hf : ∀ op r, (f' op).result = .ok r → (f op).result = .ok r)
    (hg : ∀ op r, (g' op).result = .ok r → (g op).result = .ok r) : Balanced f' g' clash := by
  obtain ⟨v, w, hvw⟩ := h
  exact ⟨v, w, fun op r hr => hvw.left op r (hf op r hr),
    fun op r hr => hvw.right op r (hg op r hr), hvw.mirror⟩

/-- The results are right about whether the pair is the same, and otherwise they read an order
off. -/
def Orderly {ε : Type} (f : Operator → Answer Bool) (same : Prop) (x : Except ε Ordering) : Prop :=
  ∀ op r, (f op).result = .ok r →
    (op.isEquality = true ∧ ∃ equal : Bool, (equal = true ↔ same) ∧ r = (equal == (op == .eq))) ∨
      ∃ o, x = .ok o ∧ r = op.holds o

theorem Orderly.congr {ε : Type} {x : Except ε Ordering} {same same' : Prop}
    (hf : Orderly f same x) (hsame : same ↔ same') : Orderly f same' x :=
  propext hsame ▸ hf

theorem Orderly.abides {ε : Type} {x : Except ε Ordering} {same : Prop} (hf : Orderly f same x)
    (hx : ∀ o, x = .ok o → v = some o) (hv : v = some .eq ↔ same) : Abides f v := by
  intro op r hr
  rcases hf op r hr with ⟨hop, equal, hequal, rfl⟩ | ⟨o, ho, rfl⟩
  · exact Operator.reads_of_isEquality hop (hequal.trans hv.symm)
  · rw [hx o ho]
    rfl

/-- Orderly comparisons are balanced if the orders of the pair in both directions mirror each other,
and come out equal only where the pair is the same. -/
theorem Balanced.of_orders {ε : Type} {x y : Except ε Ordering} {same : Prop}
    (hf : Orderly f same x) (hg : Orderly g same y)
    (hx : ∀ o, x = .ok o → (o = .eq ↔ same)) (hy : ∀ o, y = .ok o → (o = .eq ↔ same))
    (hxy : ∀ o o', x = .ok o → y = .ok o' → o' = o.swap ∨ (clash ∧ o = .gt ∧ o' = .gt)) :
    Balanced f g clash := by
  have hone {f : Operator → Answer Bool} {o : Ordering} (hf : Orderly f same (.ok o : Except ε _))
      (ho : o = .eq ↔ same) : Abides f (some o) :=
    hf.abides (fun _ heq => congrArg some (Except.ok.inj heq)) (by rw [Option.some_inj, ho])
  have hnone {f : Operator → Answer Bool} {e : ε} {v : Option Ordering}
      (hf : Orderly f same (.error e : Except ε _)) (hv : v = some .eq ↔ same) : Abides f v :=
    hf.abides nofun hv
  cases x with
  | ok o =>
    have ho := hx o rfl
    cases y with
    | ok o' =>
      refine ⟨some o, some o', hone hf ho, hone hg (hy o' rfl), ?_⟩
      rcases hxy o o' rfl rfl with rfl | ⟨hclash, rfl, rfl⟩
      · exact Or.inl rfl
      · exact Or.inr ⟨hclash, rfl, rfl⟩
    | error =>
      exact .of_mirror (hone hf ho) (hnone hg (by rw [map_swap_eq_some_eq, Option.some_inj, ho]))
  | error =>
    cases y with
    | ok o' =>
      have ho' := hy o' rfl
      refine ⟨_, some o', hnone hf ?_, hone hg ho', Or.inl (map_swap_map_swap (some o')).symm⟩
      rw [map_swap_eq_some_eq, Option.some_inj, ho']
    | error =>
      -- no order comes out in either direction, so equality is all there is
      by_cases hsame : same
      · exact .of_mirror (v := some .eq) (hnone hf (by simp [hsame])) (hnone hg (by simp [hsame]))
      · exact .of_mirror (v := none) (hnone hf (by simp [hsame])) (hnone hg (by simp [hsame]))

end Compare

/-! ## Numbers -/

namespace Number

/-- The verdict on two numbers.  Beside a complex number there is only equality. -/
def verdict (a b : Number) : Option Ordering :=
  if a.isComplex || b.isComplex then (if a.equal b then some .eq else none) else a.order? b

theorem order?_swap {a b : Number} (ha : a.isComplex = false) (hb : b.isComplex = false) :
    b.order? a = (a.order? b).map Ordering.swap := by
  by_cases hnan : a.isNaN = true ∨ b.isNaN = true
  · rw [order?_of_isNaN hnan, order?_of_isNaN hnan.symm]
    rfl
  · rw [not_or, Bool.not_eq_true, Bool.not_eq_true] at hnan
    rw [order?_eq_compare_digits 0 0 hb ha hnan.2 hnan.1,
      order?_eq_compare_digits 0 0 ha hb hnan.1 hnan.2, OrientedOrd.eq_swap]
    rfl

theorem equal_comm (a b : Number) : b.equal a = a.equal b := by
  by_cases hnan : a.isNaN = true ∨ b.isNaN = true
  · rw [equal_of_isNaN hnan, equal_of_isNaN hnan.symm]
  · rw [not_or, Bool.not_eq_true, Bool.not_eq_true] at hnan
    rw [Bool.eq_iff_iff, equal_iff_digits 0 0 hnan.2 hnan.1, equal_iff_digits 0 0 hnan.1 hnan.2,
      eq_comm]

theorem verdict_swap (a b : Number) : b.verdict a = (a.verdict b).map Ordering.swap := by
  rw [verdict, verdict, Bool.or_comm, equal_comm]
  split
  · split <;> rfl
  · next hc =>
    rw [Bool.or_eq_true, not_or, Bool.not_eq_true, Bool.not_eq_true] at hc
    exact order?_swap hc.1 hc.2

theorem holds_swapped (op : Operator) (a b : Number) :
    holds op.swapped b a = holds op a b := by
  rw [holds, holds, Bool.or_comm, equal_comm]
  split
  · cases op <;> rfl
  · next hc =>
    rw [Bool.or_eq_true, not_or, Bool.not_eq_true, Bool.not_eq_true] at hc
    rw [order?_swap hc.1 hc.2]
    cases a.order? b with
    | none => cases op <;> rfl
    | some o => exact op.holds_swapped o

end Number

namespace Compare

variable {h : Heap} {judge : Judge} {v w : Option Ordering}

theorem numberRule_reads {m n : Number} {op : Operator} {r : Bool}
    (hr : (numberRule m n op).result = .ok (some r)) : r = op.reads (m.verdict n) := by
  rw [numberRule] at hr
  split at hr
  · cases hr
  · next hc =>
    rw [Answer.result_pure_eq_ok, Option.some_inj] at hr
    rw [← hr, Number.holds, Number.verdict]
    split
    · next hcomplex =>
      rw [hcomplex, Bool.true_and, Bool.not_eq_true', Bool.not_eq_false] at hc
      cases m.equal n <;> cases op <;> first | rfl | cases hc
    · cases m.order? n <;> rfl

/-! ## Sequences -/

/-- Two sequences have the same or equal items up to these, which are neither. -/
inductive FirstDifference (judge : Judge) (x y : Value) : List Value → List Value → Prop
  | here {xs ys : List Value} (hxy : (sameOrEqual judge x y).result = .ok false) :
      FirstDifference judge x y (x :: xs) (y :: ys)
  | later {u v : Value} {xs ys : List Value} (huv : (sameOrEqual judge u v).result = .ok true)
      (rest : FirstDifference judge x y xs ys) : FirstDifference judge x y (u :: xs) (v :: ys)

/-- Where one sequence ends, the lengths decide. -/
theorem itemByItem_end {xs ys : List Value} (hend : xs = [] ∨ ys = []) (op : Operator) :
    itemByItem judge op xs ys = pure (op.holds (compare xs.length ys.length)) := by
  rcases hend with rfl | rfl
  · rw [itemByItem]
    simp
  · rw [itemByItem]
    simp

/-- Items that are alike leave it to the rest to decide. -/
theorem itemByItem_of_alike {op : Operator} {x y : Value} {xs ys : List Value} {r : Bool}
    (hj : EqSound h judge) (halike : h.Alike x y)
    (hr : (itemByItem judge op (x :: xs) (y :: ys)).result = .ok r) :
    (sameOrEqual judge x y).result = .ok true ∧ (itemByItem judge op xs ys).result = .ok r := by
  obtain ⟨same, hsame, hrest, -⟩ := itemByItem_cons hr
  cases same with
  | true => exact ⟨hsame, hrest rfl⟩
  | false =>
    have hapart := Heap.settles_eq_false.1 (sameOrEqual_settles hj hsame)
    exact absurd halike hapart.not_alike

/-- The first items that are not alike decide. -/
theorem itemByItem_of_not_alike {op : Operator} {x y : Value} {xs ys : List Value} {r : Bool}
    (hj : EqSound h judge) (hne : ¬h.Alike x y)
    (hr : (itemByItem judge op (x :: xs) (y :: ys)).result = .ok r) :
    (sameOrEqual judge x y).result = .ok false ∧ (judge x y .eq).result = .ok false ∧
      ((op = .eq ∧ r = false) ∨ (op = .ne ∧ r = true) ∨ (judge x y op).result = .ok r) := by
  obtain ⟨same, hsame, -, hfirst⟩ := itemByItem_cons hr
  cases same with
  | true =>
    exact absurd (Heap.settles_eq_true.1 (sameOrEqual_settles hj hsame)) hne
  | false =>
    refine ⟨hsame, ?_, (hfirst rfl).imp_right (Or.imp_right fun hr => hr.2.2)⟩
    rw [sameOrEqual] at hsame
    split at hsame
    · cases hsame
    · exact hsame

/-- A verdict on the first items that are not alike is one on the sequences. -/
theorem Abides.itemByItem {x y : Value} {xs ys : List Value} (hj : EqSound h judge)
    (hne : ¬h.Alike x y) (hv : Abides (judge x y) v) (hveq : v ≠ some .eq) :
    Abides (itemByItem judge · (x :: xs) (y :: ys)) v := by
  intro op r hr
  have hfalse : Operator.eq.reads v = false := Bool.eq_false_iff.2 (mt Operator.reads_eq_iff.1 hveq)
  obtain ⟨-, -, ⟨rfl, rfl⟩ | ⟨rfl, rfl⟩ | hr⟩ := itemByItem_of_not_alike hj hne hr
  · exact hfalse.symm
  · rw [Operator.reads_ne, hfalse]
    rfl
  · exact hv op r hr

theorem verdicts_of_end {xs ys : List Value} {clash : Prop} (hend : xs = [] ∨ ys = []) :
    Verdicts (itemByItem judge · xs ys) (itemByItem judge · ys xs) clash
      (some (compare xs.length ys.length)) (some (compare ys.length xs.length)) where
  left op r hr := by
    beta_reduce at hr
    rw [itemByItem_end hend, Answer.result_pure_eq_ok] at hr
    exact hr.symm
  right op r hr := by
    beta_reduce at hr
    rw [itemByItem_end hend.symm, Answer.result_pure_eq_ok] at hr
    exact hr.symm
  mirror := by
    rw [OrientedOrd.eq_swap]
    exact Or.inl rfl

theorem Verdicts.cons {x y : Value} {xs ys : List Value} {clash : Prop} (hj : EqSound h judge)
    (halike : h.Alike x y)
    (hvw : Verdicts (itemByItem judge · xs ys) (itemByItem judge · ys xs) clash v w) :
    Verdicts (itemByItem judge · (x :: xs) (y :: ys)) (itemByItem judge · (y :: ys) (x :: xs))
      clash v w where
  left op r hr := hvw.left op r (itemByItem_of_alike hj halike hr).2
  right op r hr := hvw.right op r (itemByItem_of_alike hj halike.symm hr).2
  mirror := hvw.mirror

theorem verdicts_of_not_alike {x y : Value} {clash : Prop} (hj : EqSound h judge)
    (hne : ¬h.Alike x y) (hxy : Balanced (judge x y) (judge y x) clash) (xs ys : List Value) :
    ∃ v w, Verdicts (itemByItem judge · (x :: xs) (y :: ys))
      (itemByItem judge · (y :: ys) (x :: xs)) clash v w ∧ v ≠ some .eq := by
  have hne' : ¬h.Alike y x := fun hyx => hne hyx.symm
  obtain ⟨v, w, hvw⟩ := hxy
  by_cases heq : v = some .eq
  · -- the items are not equal in either direction, so neither gives a result
    have hsilent {x y : Value} {xs ys : List Value} (hne : ¬h.Alike x y)
        (hv : Abides (judge x y) (some .eq)) :
        ¬Responds (itemByItem judge · (x :: xs) (y :: ys)) := by
      rintro ⟨op, r, hr⟩
      obtain ⟨-, hfalse, -⟩ := itemByItem_of_not_alike hj hne hr
      cases hv .eq false hfalse
    refine ⟨none, none, ⟨.of_silent (hsilent hne ?_) _, .of_silent (hsilent hne' ?_) _,
      Or.inl rfl⟩, nofun⟩
    · exact heq ▸ hvw.left
    · exact hvw.eq_iff.2 heq ▸ hvw.right
  · exact ⟨v, w, ⟨hvw.left.itemByItem hj hne heq,
      hvw.right.itemByItem hj hne' (hvw.eq_iff.not.2 heq), hvw.mirror⟩, heq⟩

theorem itemByItem_verdicts {clashes : Value → Value → Prop} (hj : EqSound h judge)
    (hparts : ∀ x y, Balanced (judge x y) (judge y x) (clashes x y)) (xs ys : List Value) :
    ∃ v w, Verdicts (itemByItem judge · xs ys) (itemByItem judge · ys xs)
        (∃ x y, FirstDifference judge x y xs ys ∧ clashes x y) v w ∧
      (xs.length ≠ ys.length → v ≠ some .eq) := by
  have hlengths {xs ys : List Value} (hne : xs.length ≠ ys.length) :
      some (compare xs.length ys.length) ≠ some .eq := fun heq =>
    hne (LawfulEqCmp.eq_of_compare (Option.some.inj heq))
  induction xs generalizing ys with
  | nil => exact ⟨_, _, verdicts_of_end (Or.inl rfl), hlengths⟩
  | cons x xs ih =>
    cases ys with
    | nil => exact ⟨_, _, verdicts_of_end (Or.inr rfl), hlengths⟩
    | cons y ys =>
      by_cases halike : h.Alike x y
      · obtain ⟨v, w, hvw, hne⟩ := ih ys
        have hlater : Responds (itemByItem judge · (x :: xs) (y :: ys)) →
            (∃ x' y', FirstDifference judge x' y' xs ys ∧ clashes x' y') →
            ∃ x' y', FirstDifference judge x' y' (x :: xs) (y :: ys) ∧ clashes x' y' := by
          rintro ⟨op, r, hr⟩ ⟨x', y', hfirst, hclash⟩
          exact ⟨x', y', .later (itemByItem_of_alike hj halike hr).1 hfirst, hclash⟩
        obtain ⟨v', w', hvw', heq⟩ := (hvw.cons hj halike).imp hlater
        exact ⟨v', w', hvw', fun hlen => heq.not.2 (hne (by simpa using hlen))⟩
      · obtain ⟨v, w, hvw, hne⟩ := verdicts_of_not_alike hj halike (hparts x y) xs ys
        have hhere : Responds (itemByItem judge · (x :: xs) (y :: ys)) → clashes x y →
            ∃ x' y', FirstDifference judge x' y' (x :: xs) (y :: ys) ∧ clashes x' y' := by
          rintro ⟨op, r, hr⟩ hclash
          exact ⟨x, y, .here (itemByItem_of_not_alike hj halike hr).1, hclash⟩
        obtain ⟨v', w', hvw', heq⟩ := hvw.imp hhere
        exact ⟨v', w', hvw', fun _ => heq.not.2 hne⟩

/-- Sequences follow the verdict on their items, if that does not make sequences of different
lengths equal. -/
theorem Abides.sequences {xs ys : List Value}
    (hv : Abides (Compare.itemByItem judge · xs ys) v)
    (hne : xs.length ≠ ys.length → v ≠ some .eq) :
    Abides (sequences judge · xs ys) v := by
  intro op r hr
  change (Compare.sequences judge op xs ys).result = .ok r at hr
  rw [Compare.sequences] at hr
  split at hr
  · next hlen =>
    rw [Answer.result_pure_eq_ok] at hr
    have hequal : false = true ↔ v = some .eq := iff_of_false Bool.false_ne_true (hne hlen.1)
    rw [← hr, ← Operator.reads_of_isEquality hlen.2 hequal]
    rcases Operator.isEquality_iff.1 hlen.2 with rfl | rfl <;> rfl
  · exact hv op r hr

/-- **Sequences are balanced if their items are.**  Only the first items that are neither the same
nor equal may clash. -/
theorem sequences_balanced {clashes : Value → Value → Prop} (hj : EqSound h judge)
    (hparts : ∀ x y, Balanced (judge x y) (judge y x) (clashes x y)) (xs ys : List Value) :
    Balanced (sequences judge · xs ys) (sequences judge · ys xs)
      (∃ x y, FirstDifference judge x y xs ys ∧ clashes x y) := by
  obtain ⟨v, w, hvw, hne⟩ := itemByItem_verdicts hj hparts xs ys
  exact ⟨v, w, hvw.left.sequences hne,
    hvw.right.sequences fun hlen => hvw.eq_iff.not.2 (hne hlen.symm), hvw.mirror⟩

end Compare

/-! ## Sets -/

/-- Every element of one set has the form of an element of another one. -/
def Heap.Within (h : Heap) (x y : List HashedKey) : Prop :=
  ∀ᶠ n in atTop, x.map (h.keyForm n) ⊆ y.map (h.keyForm n)

theorem Heap.Within.length_le {h : Heap} {x y : List HashedKey} (hxy : h.Within x y)
    (hx : h.KeysFit x) : x.length ≤ y.length := by
  obtain ⟨n, hs, hnodup⟩ := (hxy.and hx.eventually_nodup).exists
  simpa using (hnodup.subperm hs).length_le

/-- A set within one that is not larger holds all of it. -/
theorem Heap.Within.symm_iff {h : Heap} {x y : List HashedKey} (hxy : h.Within x y)
    (hx : h.KeysFit x) (hy : h.KeysFit y) : h.Within y x ↔ x.length = y.length := by
  constructor
  · exact fun hyx => Nat.le_antisymm (hxy.length_le hx) (hyx.length_le hy)
  · intro hlen
    filter_upwards [hxy, hx.eventually_nodup] with n hs hnodup
    exact ((Compare.perm_iff_subset_of_nodup hnodup (by simpa using hlen)).2 hs).symm.subset

namespace Compare

variable {h : Heap} {judge : Judge}

theorem isSubset_iff {x y : List HashedKey} {r : Bool} (hj : EqSound h judge)
    (hx : h.KeysFit x) (hy : h.KeysFit y) (hr : (isSubset judge x y).result = .ok r) :
    r = true ↔ h.Within x y :=
  eq_true_iff_eventually (isSubset_settles hj hx hy hr)

/-- Of two sets of the same size, one is within the other if both are. -/
theorem equalSets_iff {x y : List HashedKey} {r : Bool} (hj : EqSound h judge)
    (hx : h.KeysFit x) (hy : h.KeysFit y)
    (hr : (if x.length = y.length then isSubset judge x y else pure false).result = .ok r) :
    r = true ↔ h.Within x y ∧ h.Within y x := by
  split at hr
  · next hlen =>
    rw [isSubset_iff hj hx hy hr]
    exact ⟨fun hxy => ⟨hxy, (hxy.symm_iff hx hy).2 hlen⟩, And.left⟩
  · next hlen =>
    rw [← Answer.result_pure_eq_ok.1 hr]
    exact iff_of_false Bool.false_ne_true fun hboth => hlen ((hboth.1.symm_iff hx hy).1 hboth.2)

theorem properSubset_iff {x y : List HashedKey} {r : Bool} (hj : EqSound h judge)
    (hx : h.KeysFit x) (hy : h.KeysFit y)
    (hr : (if x.length < y.length then isSubset judge x y else pure false).result = .ok r) :
    r = true ↔ h.Within x y ∧ ¬h.Within y x := by
  split at hr
  · next hlen =>
    rw [isSubset_iff hj hx hy hr]
    exact ⟨fun hxy => ⟨hxy, fun hyx => absurd (hyx.length_le hy) (Nat.not_le.2 hlen)⟩, And.left⟩
  · next hlen =>
    rw [← Answer.result_pure_eq_ok.1 hr]
    refine iff_of_false Bool.false_ne_true fun ⟨hxy, hyx⟩ => hyx ((hxy.symm_iff hx hy).2 ?_)
    exact Nat.le_antisymm (hxy.length_le hx) (Nat.le_of_not_lt hlen)

/-- The verdict on two sets, where it is known which of them is within the other. -/
def inclusion (inner outer : Prop) [Decidable inner] [Decidable outer] : Option Ordering :=
  if inner then (if outer then some .eq else some .lt) else if outer then some .gt else none

theorem reads_inclusion (op : Operator) (inner outer : Prop) [Decidable inner] [Decidable outer] :
    op.reads (inclusion inner outer) = true ↔ match op with
      | .lt => inner ∧ ¬outer
      | .le => inner
      | .eq => inner ∧ outer
      | .ne => ¬(inner ∧ outer)
      | .gt => outer ∧ ¬inner
      | .ge => outer := by
  cases op <;> by_cases hi : inner <;> by_cases ho : outer <;>
    simp only [inclusion, hi, ho, if_true, if_false, not_true, not_false_iff, and_self, and_true,
      and_false] <;> decide

open Classical in
theorem sets_abides {x y : List HashedKey} (hj : EqSound h judge) (hx : h.KeysFit x)
    (hy : h.KeysFit y) :
    Abides (sets judge · x y) (inclusion (h.Within x y) (h.Within y x)) := by
  intro op r hr
  rw [Bool.eq_iff_iff, reads_inclusion]
  cases op with
  | eq => exact equalSets_iff hj hx hy hr
  | ne =>
    obtain ⟨equal, hr, hne⟩ := Answer.result_ite_bind_eq_ok.1 hr
    rw [← Answer.result_pure_eq_ok.1 hne, Bool.not_eq_true', ← Bool.not_eq_true,
      equalSets_iff hj hx hy hr]
  | lt => exact properSubset_iff hj hx hy hr
  | gt => exact properSubset_iff hj hy hx hr
  | le => exact isSubset_iff hj hx hy hr
  | ge => exact isSubset_iff hj hy hx hr

/-- **Sets are balanced**, whatever is within what. -/
theorem sets_balanced {x y : List HashedKey} {clash : Prop} (hj : EqSound h judge)
    (hx : h.KeysFit x) (hy : h.KeysFit y) :
    Balanced (sets judge · x y) (sets judge · y x) clash := by
  classical
  refine .of_mirror (sets_abides hj hx hy) ?_
  have hswap : (inclusion (h.Within x y) (h.Within y x)).map Ordering.swap =
      inclusion (h.Within y x) (h.Within x y) := by
    by_cases hxy : h.Within x y <;> by_cases hyx : h.Within y x <;> simp [inclusion, hxy, hyx]
  rw [hswap]
  exact sets_abides hj hy hx

end Compare

end ValueHeap
