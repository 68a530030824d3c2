import ValueHeap.Proofs.Compare.Standoff
import ValueHeap.Proofs.Compare.TotalOrder

/-!
# Exchanging the operands

With the operands exchanged a comparison asks its rules the other way round, and the verdict comes
out mirrored: number by number, sequence by sequence, set by set, and down to the fallback.

The one exception is a standoff of two dicts in total mode.  Each of them is above the other, and so
are the lists, tuples and slices that first differ by them.  Nowhere else does a comparison fail to
be mirrored.

## What is here

* `Compare.dispatch_numbers` — two numbers are compared by the rule for numbers.
* `Compare.Clash` and `Compare.Stalemate` — two values whose comparison in total mode comes down to
  a standoff, one level at a time and in all.
* `Compare.dispatch_balanced` and `Compare.within_balanced` — rich comparison is balanced but for a
  stalemate.
* `Compare.Stalemate.abides` — in a stalemate each value is above the other.
-/

set_option autoImplicit false

namespace ValueHeap

open Filter Std

/-! ## Types and identities -/

theorem TypeRef.order_swap (s t : TypeRef) : t.order s = (s.order t).swap := by
  cases s <;> cases t <;> first | rfl | exact OrientedOrd.eq_swap

theorem Identity.order_swap (x y : Identity) : y.order x = (x.order y).swap := by
  cases x <;> cases y
  · rw [order, order, Ordering.swap_then, ← OrientedOrd.eq_swap, ← OrientedOrd.eq_swap]
  · rfl
  · rfl
  · exact OrientedOrd.eq_swap

/-! ## Contents -/

theorem Payload.SameKind.symm {p q : Payload} (hpq : p.SameKind q) : q.SameKind p := by
  cases hpq <;> constructor

/-- Contents that are compared item by item, with these items. -/
inductive Payload.Itemised : Payload → Payload → List Value → List Value → Prop
  | list (xs ys : List Value) : Itemised (list xs) (list ys) xs ys
  | tuple (xs ys : List Value) : Itemised (tuple xs) (tuple ys) xs ys
  | slice (a b c d e f : Value) : Itemised (slice a b c) (slice d e f) [a, b, c] [d, e, f]

theorem Payload.Itemised.symm {p q : Payload} {xs ys : List Value} (hpq : p.Itemised q xs ys) :
    q.Itemised p ys xs := by
  cases hpq <;> constructor

theorem Payload.Itemised.sameKind {p q : Payload} {xs ys : List Value}
    (hpq : p.Itemised q xs ys) : p.SameKind q := by
  cases hpq <;> constructor

theorem Payload.Itemised.not_dict {p q : Payload} {xs ys : List Value}
    (hpq : p.Itemised q xs ys) : p.typeRef ≠ .builtin .dict := by
  cases hpq <;> nofun

namespace Compare

variable {h : Heap} {judge : Judge} {levels : Nat} {mode : Mode} {a b : Value} {op : Operator}
  {r : Bool}

/-! ## The fallback -/

theorem typeOrder_swap {first second : TypeRef} {x y : FallbackRule × Ordering}
    (hne : first ≠ second) (hx : typeOrder h first second = .ok x)
    (hy : typeOrder h second first = .ok y) : y.2 = x.2.swap := by
  rw [typeOrder] at hx hy
  split at hx
  · next hfirst =>
    rw [if_neg (fun hsecond => hne (hfirst.trans hsecond.symm)), if_pos hfirst] at hy
    cases hx
    cases hy
    rfl
  · next hfirst =>
    split at hx
    · next hsecond =>
      rw [if_pos hsecond] at hy
      cases hx
      cases hy
      rfl
    · next hsecond =>
      rw [if_neg hsecond, if_neg hfirst] at hy
      cases hf : first.isNumeric <;> cases hs : second.isNumeric <;> rw [hf, hs] at hx hy
      · -- neither is numeric, so the spellings are compared
        obtain ⟨left, hl, hx⟩ := bind_eq_ok.1 hx
        obtain ⟨right, hr, hx⟩ := bind_eq_ok.1 hx
        obtain ⟨right', hr', hy⟩ := bind_eq_ok.1 hy
        obtain ⟨left', hl', hy⟩ := bind_eq_ok.1 hy
        cases hl'.symm.trans hl
        cases hr'.symm.trans hr
        rw [OrientedOrd.eq_swap] at hy
        cases hc : compare left right <;> rw [hc] at hx hy <;> cases hx <;> cases hy <;>
          first | rfl | exact TypeRef.order_swap _ _
      · cases hx
        cases hy
        rfl
      · cases hx
        cases hy
        rfl
      · cases hx
        cases hy
        exact TypeRef.order_swap _ _

theorem fallbackOrder_swap {x y : FallbackRule × Ordering} (hx : fallbackOrder h a b = .ok x)
    (hy : fallbackOrder h b a = .ok y) : y.2 = x.2.swap := by
  by_cases hab : a = b
  · subst hab
    rw [fallbackOrder, if_pos (Value.isIdentical_refl a)] at hx hy
    cases hx
    cases hy
    rfl
  · rw [fallbackOrder, if_neg (by simp [Value.isIdentical_eq_false hab])] at hx
    rw [fallbackOrder, if_neg (by simp [Value.isIdentical_eq_false (Ne.symm hab)])] at hy
    obtain ⟨first, hfirst, hx⟩ := bind_eq_ok.1 hx
    obtain ⟨second, hsecond, hx⟩ := bind_eq_ok.1 hx
    obtain ⟨second', hsecond', hy⟩ := bind_eq_ok.1 hy
    obtain ⟨first', hfirst', hy⟩ := bind_eq_ok.1 hy
    cases hfirst'.symm.trans hfirst
    cases hsecond'.symm.trans hsecond
    split at hx
    · next heq =>
      rw [if_pos heq.symm] at hy
      cases hx
      cases hy
      exact Identity.order_swap _ _
    · next hne =>
      rw [if_neg (Ne.symm hne)] at hy
      exact typeOrder_swap hne hx hy

theorem fallbackOrder_eq_iff {x : FallbackRule × Ordering} (hx : fallbackOrder h a b = .ok x) :
    x.2 = .eq ↔ a = b := by
  constructor
  · exact fun heq => by_contra fun hab => fallbackOrder_ne_eq hab hx heq
  · rintro rfl
    rw [fallbackOrder, if_pos (Value.isIdentical_refl a)] at hx
    cases hx
    rfl

/-- What the fallback makes of its order: in strict mode there is only equality. -/
theorem fallback_result (hr : (fallback h mode levels a b op).result = .ok r) :
    (op.isEquality = true ∧ r = (a.isIdentical b == (op == .eq))) ∨
      (mode = .total ∧ ∃ x, fallbackOrder h a b = .ok x ∧ r = op.holds x.2) := by
  cases mode with
  | total =>
    rw [fallback] at hr
    obtain ⟨x, hx, hr⟩ := Answer.result_bind_eq_ok.1 hr
    obtain ⟨-, -, hr⟩ := Answer.result_bind_eq_ok.1 hr
    exact Or.inr ⟨rfl, x, Answer.result_look_eq_ok.1 hx, (Answer.result_pure_eq_ok.1 hr).symm⟩
  | strict =>
    rw [fallback] at hr
    split at hr
    · next hop =>
      obtain ⟨-, -, hr⟩ := Answer.result_bind_eq_ok.1 hr
      exact Or.inl ⟨hop, (Answer.result_pure_eq_ok.1 hr).symm⟩
    · obtain ⟨left, -, hr⟩ := Answer.result_bind_eq_ok.1 hr
      obtain ⟨right, -, hr⟩ := Answer.result_bind_eq_ok.1 hr
      exact absurd hr Answer.result_raise_ne_ok

/-- By the fallback rules of either mode a value is equal to itself only. -/
theorem fallback_of_isEquality {x : FallbackRule × Ordering} (hop : op.isEquality = true)
    (hx : fallbackOrder h a b = .ok x) :
    (fallback h mode levels a b op).result = .ok (a.isIdentical b == (op == .eq)) := by
  cases mode with
  | strict =>
    rw [fallback, if_pos hop]
    rfl
  | total =>
    have hiff : a.isIdentical b = true ↔ x.2 = .eq :=
      Value.isIdentical_iff.trans (fallbackOrder_eq_iff hx).symm
    have hid : a.isIdentical b = (x.2 == .eq) := by rw [Bool.eq_iff_iff, hiff, beq_iff_eq]
    rw [fallback, Answer.result_look_bind hx, hid]
    show Except.ok (op.holds x.2) = _
    rcases Operator.isEquality_iff.1 hop with rfl | rfl <;> cases x.2 <;> rfl

/-! ## Numbers -/

/-- The rule for two numbers says the same of the exchanged pair. -/
theorem numberRule_swapped (m n : Number) (op : Operator) :
    numberRule n m op.swapped = numberRule m n op := by
  have hequality : op.swapped.isEquality = op.isEquality := by cases op <;> rfl
  rw [numberRule, numberRule, Bool.or_comm, hequality, Number.holds_swapped]

theorem exists_typeOf_of_number {m : Number} (hm : numberOf h a = .ok (some m)) :
    ∃ ty, h.typeOf a = .ok (.builtin ty) := by
  cases a with
  | ref s =>
    simp only [numberOf, Heap.typeOf] at hm ⊢
    cases hp : h.read s with
    | error f => rw [hp] at hm; cases hm
    | ok p =>
      rw [hp] at hm
      cases p <;> first | exact ⟨_, rfl⟩ | cases hm
  | _ => exact ⟨_, rfl⟩

/-- **Two numbers are compared by the rule for numbers**, whichever of their types is asked. -/
theorem dispatch_numbers {m n : Number} {op : Operator} (hm : numberOf h a = .ok (some m))
    (hn : numberOf h b = .ok (some n)) :
    dispatch h mode levels judge a b op =
      if (m.isComplex || n.isComplex) && !op.isEquality then Answer.raise .complexOrdering
      else pure (Number.holds op m n) := by
  obtain ⟨first, hfirst⟩ := exists_typeOf_of_number hm
  obtain ⟨second, hsecond⟩ := exists_typeOf_of_number hn
  have hrule {next : Answer Bool} : Answer.decideOr (numberRule m n op) next =
      if (m.isComplex || n.isComplex) && !op.isEquality then Answer.raise .complexOrdering
      else pure (Number.holds op m n) := by
    rw [Answer.decideOr, numberRule]
    split <;> rfl
  rw [dispatch, Answer.look_bind hfirst, Answer.look_bind hsecond, typeRule_numbers hm hn,
    typeRule_numbers hn hm, numberRule_swapped]
  -- every order in which the rules are asked begins with the rule for the two numbers
  split
  · exact hrule
  · rw [Answer.look_bind (x := h.isSubtype _ _) rfl]
    split <;> exact hrule

/-- Two numbers follow the verdict on them. -/
theorem numbers_abide {m n : Number} (hm : numberOf h a = .ok (some m))
    (hn : numberOf h b = .ok (some n)) :
    Abides (dispatch h mode levels judge a b) (m.verdict n) := by
  intro op r hr
  have hrule : (numberRule m n op).result = .ok (some r) := by
    rw [dispatch_numbers hm hn] at hr
    rw [numberRule]
    split at hr
    · exact absurd hr Answer.result_raise_ne_ok
    · next hop =>
      rw [if_neg hop, ← Answer.result_pure_eq_ok.1 hr]
      rfl
  exact numberRule_reads hrule

/-! ## Values without a rule of their own -/

theorem sameKind_of_payloadRule {p q : Payload}
    (hr : (payloadRule judge op p q).result = .ok (some r)) : p.SameKind q := by
  cases p <;> cases q <;> first | constructor | cases hr

/-- Two values that are not both numbers, and whose contents are of no common kind that has a rule
of its own. -/
structure Unruled (h : Heap) (a b : Value) : Prop where
  numbers : ∀ m n, numberOf h a = .ok (some m) → numberOf h b ≠ .ok (some n)
  contents : ∀ s t p q, a = .ref s → b = .ref t → h.find? s = some p → h.find? t = some q →
    ¬p.SameKind q

theorem Unruled.symm (hab : Unruled h a b) : Unruled h b a where
  numbers m n hm hn := hab.numbers n m hn hm
  contents s t p q hs ht hp hq hpq := hab.contents t s q p ht hs hq hp hpq.symm

theorem Unruled.typeRule (hab : Unruled h a b)
    (hr : (typeRule h levels judge a b op).result = .ok (some r)) :
    a = b ∧ op.isEquality = true ∧ r = (op == .eq) := by
  rcases typeRule_some hr with ⟨m, n, hm, hn, -⟩ | hid | ⟨s, t, p, q, hs, ht, hp, hq, hr⟩
  · exact absurd hn (hab.numbers m n hm)
  · exact hid
  · exact absurd (sameKind_of_payloadRule hr) (hab.contents s t p q hs ht hp hq)

/-- Without a rule of their own, values are ordered by the fallback, and are the same only if they
are identical. -/
theorem Unruled.orderly (hab : Unruled h a b) :
    Orderly (dispatch h mode levels judge a b) (a = b) ((fallbackOrder h a b).map Prod.snd) := by
  intro op r hr
  obtain ⟨first, second, -, -, hr⟩ := dispatch_cases hr
  rcases hr with hr | ⟨-, hr⟩ | ⟨-, -, hr⟩ | ⟨-, -, -, hr⟩
  · obtain ⟨heq, hop, rfl⟩ := hab.typeRule hr
    exact Or.inl ⟨hop, true, iff_of_true rfl heq, by cases op <;> rfl⟩
  · obtain ⟨heq, hop, rfl⟩ := hab.symm.typeRule hr
    refine Or.inl ⟨?_, true, iff_of_true rfl heq.symm, ?_⟩
    · cases op <;> first | rfl | cases hop
    · cases op <;> rfl
  · obtain ⟨-, s, t, x, y, o, hs, ht, hp, hq, -⟩ := threeWayRule_some hr
    exact absurd (.dict x y) (hab.contents s t _ _ hs ht hp hq)
  · rcases fallback_result hr with ⟨hop, hr⟩ | ⟨-, x, hx, hr⟩
    · exact Or.inl ⟨hop, a.isIdentical b, Value.isIdentical_iff, hr⟩
    · exact Or.inr ⟨x.2, by rw [hx]; rfl, hr⟩

theorem Unruled.balanced {clash : Prop} (hab : Unruled h a b) :
    Balanced (dispatch h mode levels judge a b) (dispatch h mode levels judge b a) clash := by
  have hsnd {a b : Value} {o : Ordering} (ho : (fallbackOrder h a b).map Prod.snd = .ok o) :
      ∃ x, fallbackOrder h a b = .ok x ∧ x.2 = o := by
    cases hx : fallbackOrder h a b with
    | error => simp [hx, Except.map] at ho
    | ok x =>
      rw [hx] at ho
      exact ⟨x, rfl, Except.ok.inj ho⟩
  refine .of_orders hab.orderly (hab.symm.orderly.congr eq_comm) (fun o ho => ?_) (fun o ho => ?_)
    fun o o' ho ho' => ?_
  · obtain ⟨x, hx, rfl⟩ := hsnd ho
    exact fallbackOrder_eq_iff hx
  · obtain ⟨x, hx, rfl⟩ := hsnd ho
    rw [fallbackOrder_eq_iff hx, eq_comm]
  · obtain ⟨x, hx, rfl⟩ := hsnd ho
    obtain ⟨y, hy, rfl⟩ := hsnd ho'
    exact Or.inl (fallbackOrder_swap hx hy)

/-! ## Contents of the same kind -/

section Contents

variable {s t : Slot} {p q : Payload} (hp : h.find? s = some p) (hq : h.find? t = some q)
  (hpq : p.SameKind q)

include hp hq hpq

/-- Contents of the same kind are compared by the rule of their kind, or else they are dicts whose
order is asked for in total mode. -/
theorem contents_result
    (hr : (dispatch h mode levels judge (.ref s) (.ref t) op).result = .ok r) :
    (payloadRule judge op p q).result = .ok (some r) ∨
      (mode = .total ∧ ∃ x y o, p = .dict x ∧ q = .dict y ∧
        (dictOrder judge x y).result = .ok o ∧ r = op.holds o) := by
  obtain ⟨first, second, hfirst, hsecond, hr⟩ := dispatch_cases hr
  have heq : first = second := by
    rw [Heap.typeOf_ref hp] at hfirst
    rw [Heap.typeOf_ref hq] at hsecond
    cases hfirst
    cases hsecond
    cases hpq <;> rfl
  rcases hr with hr | ⟨hne, -⟩ | ⟨-, -, hr⟩ | ⟨hnone, hthree, -, hr⟩
  · rw [typeRule_contents hp hq hpq] at hr
    exact Or.inl hr
  · exact absurd heq hne
  · obtain ⟨hmode, s', t', x, y, o, hs, ht, hp', hq', ho, hr⟩ := threeWayRule_some hr
    cases hs
    cases ht
    cases hp.symm.trans hp'
    cases hq.symm.trans hq'
    exact Or.inr ⟨hmode, x, y, o, rfl, rfl, ho, hr⟩
  · -- only the order of two dicts is left open: total mode knows it, and strict mode refuses it
    rw [typeRule_contents hp hq hpq] at hnone
    have hopen : op.isEquality = false ∧ p.typeRef = .builtin .dict := by
      rw [← Bool.not_eq_true, ← not_not (a := p.typeRef = _), ← not_or]
      exact fun hor => payloadRule_ne_none hpq hor hnone
    rcases fallback_result hr with ⟨hop, -⟩ | ⟨rfl, -⟩
    · rw [hopen.1] at hop
      cases hop
    · cases hpq <;> cases hopen.2
      exact absurd (hthree heq) (threeWayRule_ne_none hp hq)

/-- Contents other than dicts get their result from the rule of their kind. -/
theorem result_of_rule {x : Answer Bool} (hdict : p.typeRef ≠ .builtin .dict)
    (hrule : payloadRule judge op p q = some <$> x)
    (hr : (dispatch h mode levels judge (.ref s) (.ref t) op).result = .ok r) :
    x.result = .ok r := by
  rcases contents_result hp hq hpq hr with hr | ⟨-, y, z, o, rfl, -⟩
  · rw [hrule] at hr
    obtain ⟨r', hr, hrr⟩ := Answer.result_map_eq_ok.1 hr
    cases hrr
    exact hr
  · exact absurd rfl hdict

/-- Contents other than dicts are balanced if their rules are. -/
theorem contents_balanced {f g : Operator → Answer Bool} {clash : Prop}
    (hdict : p.typeRef ≠ .builtin .dict) (hf : ∀ op, payloadRule judge op p q = some <$> f op)
    (hg : ∀ op, payloadRule judge op q p = some <$> g op) (hfg : Balanced f g clash) :
    Balanced (dispatch h mode levels judge (.ref s) (.ref t))
      (dispatch h mode levels judge (.ref t) (.ref s)) clash := by
  have hdict' : q.typeRef ≠ .builtin .dict := by
    cases hpq <;> exact hdict
  exact hfg.of_results (fun op r => result_of_rule hp hq hpq hdict (hf op))
    fun op r => result_of_rule hq hp hpq.symm hdict' (hg op)

end Contents

/-- An order that is turned around makes a balanced comparison. -/
theorem balanced_of_swap {o o' : Ordering} {clash : Prop} (hswap : o' = o.swap) :
    Balanced (fun op => pure (op.holds o)) (fun op => pure (op.holds o')) clash := by
  refine .of_mirror (v := some o) (fun op r hr => ?_) fun op r hr => ?_
  · exact (Answer.result_pure_eq_ok.1 hr).symm
  · rw [← Answer.result_pure_eq_ok.1 hr, hswap]
    rfl

theorem payloadRule_of_itemised {p q : Payload} {xs ys : List Value} (hpq : p.Itemised q xs ys) :
    payloadRule judge op p q = some <$> sequences judge op xs ys := by
  cases hpq <;> rfl

/-! ## Dicts -/

/-- Dicts are the same if they hold the same entries, and total mode knows an order of them. -/
theorem dicts_orderly {s t : Slot} {x y : List Entry} (hk : h.Keyed) (hj : EqSound h judge)
    (hp : h.find? s = some (.dict x)) (hq : h.find? t = some (.dict y)) :
    Orderly (dispatch h .total levels judge (.ref s) (.ref t)) (h.SameEntries x y)
        (dictOrder judge x y).result ∧
      Orderly (dispatch h .strict levels judge (.ref s) (.ref t)) (h.SameEntries x y)
        (.error () : Except Unit Ordering) := by
  have hrule {op : Operator} {r : Bool}
      (hr : (payloadRule judge op (.dict x) (.dict y)).result = .ok (some r)) :
      op.isEquality = true ∧ ∃ equal : Bool, (equal = true ↔ h.SameEntries x y) ∧
        r = (equal == (op == .eq)) := by
    rw [payloadRule] at hr
    split at hr
    · next hop =>
      obtain ⟨equal, hequal, hrr⟩ := Answer.result_map_eq_ok.1 hr
      cases hrr
      exact ⟨hop, equal, dictsEqual_iff hj (hk _ _ hp) (hk _ _ hq) hequal, rfl⟩
    · cases hr
  constructor
  · intro op r hr
    rcases contents_result hp hq (.dict x y) hr with hr | ⟨-, x', y', o, hx, hy, ho, hr⟩
    · exact Or.inl (hrule hr)
    · cases hx
      cases hy
      exact Or.inr ⟨o, ho, hr⟩
  · intro op r hr
    rcases contents_result hp hq (.dict x y) hr with hr | ⟨hmode, -⟩
    · exact Or.inl (hrule hr)
    · cases hmode

theorem dicts_balanced {clashes : Value → Value → Prop} {s t : Slot} {x y : List Entry}
    (hk : h.Keyed) (hj : EqSound h judge)
    (hparts : ∀ u v, Balanced (judge u v) (judge v u) (clashes u v))
    (hp : h.find? s = some (.dict x)) (hq : h.find? t = some (.dict y)) :
    Balanced (dispatch h mode levels judge (.ref s) (.ref t))
      (dispatch h mode levels judge (.ref t) (.ref s)) (mode = .total ∧ Standoff judge x y) := by
  cases mode with
  | strict =>
    exact .of_orders (dicts_orderly hk hj hp hq).2
      ((dicts_orderly hk hj hq hp).2.congr Heap.SameEntries.comm) nofun nofun nofun
  | total =>
    refine .of_orders (dicts_orderly hk hj hp hq).1
      ((dicts_orderly hk hj hq hp).1.congr Heap.SameEntries.comm) (fun o ho => ?_) (fun o ho => ?_)
      fun o o' ho ho' => ?_
    · exact (dictOrder_cases ho).eq_iff hj (hk _ _ hp) (hk _ _ hq)
    · rw [Heap.SameEntries.comm]
      exact (dictOrder_cases ho).eq_iff hj (hk _ _ hq) (hk _ _ hp)
    · exact ((dictOrder_cases ho).swap hparts (dictOrder_cases ho')).imp_right
        fun ⟨hstandoff, hgt⟩ => ⟨⟨rfl, hstandoff⟩, hgt⟩

/-! ## One level -/

/-- Two containers whose comparison comes down to a standoff: they are two such dicts themselves, or
the first of their items that are neither the same nor equal have come down to one. -/
inductive Clash (h : Heap) (judge : Judge) (below : Value → Value → Prop) : Value → Value → Prop
  | items {s t : Slot} {p q : Payload} {xs ys : List Value} {x y : Value}
      (hp : h.find? s = some p) (hq : h.find? t = some q) (hpq : p.Itemised q xs ys)
      (hfirst : FirstDifference judge x y xs ys) (hxy : below x y) :
      Clash h judge below (.ref s) (.ref t)
  | dicts {s t : Slot} {x y : List Entry} (hp : h.find? s = some (.dict x))
      (hq : h.find? t = some (.dict y)) (hxy : Standoff judge x y) :
      Clash h judge below (.ref s) (.ref t)

section OneLevel

variable {below : Value → Value → Prop} (hk : h.Keyed) (hj : EqSound h judge)
  (hparts : ∀ x y, Balanced (judge x y) (judge y x) (mode = .total ∧ below x y))

include hj hparts

theorem items_balanced {s t : Slot} {p q : Payload} {xs ys : List Value}
    (hp : h.find? s = some p) (hq : h.find? t = some q) (hpq : p.Itemised q xs ys) :
    Balanced (dispatch h mode levels judge (.ref s) (.ref t))
      (dispatch h mode levels judge (.ref t) (.ref s))
      (mode = .total ∧ Clash h judge below (.ref s) (.ref t)) := by
  refine (contents_balanced hp hq hpq.sameKind hpq.not_dict
    (fun op => payloadRule_of_itemised hpq) (fun op => payloadRule_of_itemised hpq.symm)
    (sequences_balanced hj hparts xs ys)).imp ?_
  rintro - ⟨x, y, hfirst, rfl, hxy⟩
  exact ⟨rfl, .items hp hq hpq hfirst hxy⟩

include hk

theorem sameKind_balanced {s t : Slot} {p q : Payload} (hp : h.find? s = some p)
    (hq : h.find? t = some q) (hpq : p.SameKind q) :
    Balanced (dispatch h mode levels judge (.ref s) (.ref t))
      (dispatch h mode levels judge (.ref t) (.ref s))
      (mode = .total ∧ Clash h judge below (.ref s) (.ref t)) := by
  cases hpq with
  | str x y =>
    exact contents_balanced hp hq (.str x y) nofun (fun _ => rfl) (fun _ => rfl)
      (balanced_of_swap OrientedOrd.eq_swap)
  | bytes x y =>
    exact contents_balanced hp hq (.bytes x y) nofun (fun _ => rfl) (fun _ => rfl)
      (balanced_of_swap OrientedOrd.eq_swap)
  | range x y =>
    refine contents_balanced hp hq (.range x y) nofun (fun _ => rfl) (fun _ => rfl)
      (balanced_of_swap ?_)
    rw [Progression.order_eq_compare_digits, Progression.order_eq_compare_digits]
    exact OrientedOrd.eq_swap
  | list xs ys => exact items_balanced hj hparts hp hq (.list xs ys)
  | tuple xs ys => exact items_balanced hj hparts hp hq (.tuple xs ys)
  | slice x y z x' y' z' => exact items_balanced hj hparts hp hq (.slice x y z x' y' z')
  | set x y =>
    exact contents_balanced hp hq (.set x y) nofun (fun _ => rfl) (fun _ => rfl)
      (sets_balanced hj (hk _ _ hp) (hk _ _ hq))
  | dict x y =>
    exact (dicts_balanced hk hj hparts hp hq).imp
      fun _ ⟨hmode, hstandoff⟩ => ⟨hmode, .dicts hp hq hstandoff⟩

/-- **One level is balanced if the level below is**, but for a clash of two containers in total
mode. -/
theorem dispatch_balanced (a b : Value) :
    Balanced (dispatch h mode levels judge a b) (dispatch h mode levels judge b a)
      (mode = .total ∧ Clash h judge below a b) := by
  by_cases hnum : ∃ m n, numberOf h a = .ok (some m) ∧ numberOf h b = .ok (some n)
  · obtain ⟨m, n, hm, hn⟩ := hnum
    refine .of_mirror (numbers_abide hm hn) ?_
    rw [← Number.verdict_swap]
    exact numbers_abide hn hm
  by_cases hkind : ∃ s t p q, a = .ref s ∧ b = .ref t ∧ h.find? s = some p ∧
      h.find? t = some q ∧ p.SameKind q
  · obtain ⟨s, t, p, q, rfl, rfl, hp, hq, hpq⟩ := hkind
    exact sameKind_balanced hk hj hparts hp hq hpq
  · refine Unruled.balanced ⟨fun m n hm hn => hnum ⟨m, n, hm, hn⟩, ?_⟩
    exact fun s t p q hs ht hp hq hpq => hkind ⟨s, t, p, q, hs, ht, hp, hq, hpq⟩

end OneLevel

/-! ## All levels -/

/-- A comparison in total mode, with so many levels left, that comes down to a standoff. -/
def Stalemate (h : Heap) : Nat → Value → Value → Prop
  | 0, _, _ => False
  | levels + 1, a, b => Clash h (within h .total levels) (Stalemate h levels) a b

theorem unlessInts_balanced {clash : Prop} (hb : Balanced (judge a b) (judge b a) clash) :
    Balanced (unlessInts judge a b) (unlessInts judge b a) clash := by
  by_cases hints : ∃ m n : Int64, a = .int m ∧ b = .int n
  · obtain ⟨m, n, rfl, rfl⟩ := hints
    exact balanced_of_swap OrientedOrd.eq_swap
  · refine hb.of_results (fun op r hr => ?_) fun op r hr => ?_
    · exact (unlessInts_cases hr).resolve_left fun ⟨m, n, ha, hb, _⟩ => hints ⟨m, n, ha, hb⟩
    · exact (unlessInts_cases hr).resolve_left fun ⟨m, n, hb, ha, _⟩ => hints ⟨n, m, ha, hb⟩

/-- **Rich comparison is balanced**, in either mode and with any number of levels, but for a
stalemate in total mode. -/
theorem within_balanced (hk : h.Keyed) (mode : Mode) (n : Nat) (a b : Value) :
    Balanced (within h mode n a b) (within h mode n b a)
      (mode = .total ∧ Stalemate h n a b) := by
  induction n generalizing a b with
  | zero =>
    refine unlessInts_balanced (.of_mirror (v := none) ?_ ?_) <;>
      exact .of_silent (fun ⟨_, _, hr⟩ => Answer.result_refuse_ne_ok hr) _
  | succ n ih =>
    refine unlessInts_balanced
      ((dispatch_balanced hk (within_eqSound hk mode n) ih a b).imp ?_)
    rintro - ⟨rfl, hclash⟩
    exact ⟨rfl, hclash⟩

/-! ## Stalemates -/

theorem FirstDifference.abides {x y : Value} {xs ys : List Value} (hj : EqSound h judge)
    (hfirst : FirstDifference judge x y xs ys) (hxy : Abides (judge x y) (some .gt))
    (hyx : Abides (judge y x) (some .gt)) :
    Abides (itemByItem judge · xs ys) (some .gt) ∧
      Abides (itemByItem judge · ys xs) (some .gt) := by
  induction hfirst with
  | here hfalse =>
    have hne := (Heap.settles_eq_false.1 (sameOrEqual_settles hj hfalse)).not_alike
    exact ⟨hxy.itemByItem hj hne nofun, hyx.itemByItem hj (fun halike => hne halike.symm) nofun⟩
  | later huv rest ih =>
    have halike := Heap.settles_eq_true.1 (sameOrEqual_settles hj huv)
    exact ⟨fun op r hr => ih.1 op r (itemByItem_of_alike hj halike hr).2,
      fun op r hr => ih.2 op r (itemByItem_of_alike hj halike.symm hr).2⟩

theorem Standoff.abides {s t : Slot} {x y : List Entry} (hk : h.Keyed) (hj : EqSound h judge)
    (hp : h.find? s = some (.dict x)) (hq : h.find? t = some (.dict y))
    (hxy : Standoff judge x y) :
    Abides (dispatch h .total levels judge (.ref s) (.ref t)) (some .gt) := by
  refine (dicts_orderly hk hj hp hq).1.abides (fun o ho => ?_) ?_
  · rw [hxy.order (dictOrder_cases ho)]
  · obtain ⟨-, e, f, hdiffer, -⟩ := hxy
    exact iff_of_false nofun (not_sameEntries hj (hk _ _ hp) (hk _ _ hq) hdiffer.1)

theorem Clash.abides {below : Value → Value → Prop} (hk : h.Keyed) (hj : EqSound h judge)
    (hbelow : ∀ x y, below x y →
      Abides (judge x y) (some .gt) ∧ Abides (judge y x) (some .gt))
    (hab : Clash h judge below a b) :
    Abides (dispatch h .total levels judge a b) (some .gt) ∧
      Abides (dispatch h .total levels judge b a) (some .gt) := by
  cases hab with
  | items hp hq hpq hfirst hxy =>
    obtain ⟨hitems, hitems'⟩ := hfirst.abides hj (hbelow _ _ hxy).1 (hbelow _ _ hxy).2
    constructor
    · exact fun op r hr => (hitems.sequences fun _ => nofun) op r
        (result_of_rule hp hq hpq.sameKind hpq.not_dict (payloadRule_of_itemised hpq) hr)
    · exact fun op r hr => (hitems'.sequences fun _ => nofun) op r
        (result_of_rule hq hp hpq.symm.sameKind hpq.symm.not_dict
          (payloadRule_of_itemised hpq.symm) hr)
  | dicts hp hq hxy => exact ⟨hxy.abides hk hj hp hq, hxy.symm.abides hk hj hq hp⟩

/-- Two values in a stalemate are no machine integers. -/
theorem Stalemate.within_eq {n : Nat} (hab : Stalemate h (n + 1) a b) (op : Operator) :
    within h .total (n + 1) a b op = dispatch h .total n (within h .total n) a b op ∧
      within h .total (n + 1) b a op = dispatch h .total n (within h .total n) b a op := by
  cases hab <;> exact ⟨rfl, rfl⟩

/-- **In a stalemate each value is above the other**, as far as the operators give results. -/
theorem Stalemate.abides {n : Nat} (hk : h.Keyed) (hab : Stalemate h n a b) :
    Abides (within h .total n a b) (some .gt) ∧ Abides (within h .total n b a) (some .gt) := by
  induction n generalizing a b with
  | zero => exact hab.elim
  | succ n ih =>
    obtain ⟨hleft, hright⟩ := Clash.abides hk (within_eqSound hk .total n) (fun _ _ => ih) hab
    exact ⟨fun op r hr => hleft op r ((hab.within_eq op).1 ▸ hr),
      fun op r hr => hright op r ((hab.within_eq op).2 ▸ hr)⟩

end Compare

end ValueHeap
