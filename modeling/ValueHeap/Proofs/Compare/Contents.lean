import ValueHeap.Proofs.Compare.Blame
import ValueHeap.Proofs.Compare.Mirror
import ValueHeap.Proofs.Compare.MoreLevels
import ValueHeap.Proofs.Faultless.Compare
import ValueHeap.Proofs.Object.Twins

/-!
# Comparing twins

A comparison of two values is held against one of their twins.  Identity is asked about on the way,
for items of sequences, for keys and values of dicts, for elements of sets, and by the fallback, and
two values may be identical in one heap while their twins are two.  It makes no difference: twins of
one value have the same form, so they are found to be equal, and neither is below the other.

The runs may have different numbers of levels to go, so one of them may run out of levels where the
other one does not.  Otherwise they end in the same way.

## What is here

* `Leeway.tooDeep` — either run may stop for want of levels.
* `Compare.sameOrEqual_of_alike` and `Compare.valueOrder_of_alike` — values of the same form, which
  may be identical.
* `Compare.fallback_matches` — the fallback, where the rules leave a question open.
* `Compare.within_twins` — a comparison held against one of twins.
-/

set_option autoImplicit false

namespace ValueHeap

open Filter

/-- Either run may stop for want of levels, and otherwise they stop alike. -/
def Leeway.tooDeep : Leeway := ⟨(· = Halt.tooDeep), (· = Halt.tooDeep), Eq, False⟩

namespace Compare

open Answer

theorem Settled.matches {α : Type} {x y : Answer α} {a : α} (hx : Settled x a) (hy : Settled y a) :
    Matches .tooDeep Eq x y := by
  rcases hx with hx | hx
  · rcases hy with hy | hy
    · exact .ok hx hy rfl False.elim
    · exact .right hy rfl
  · exact .left hx rfl

theorem Settled.bind {α β : Type} {x : Answer α} {f : α → Answer β} {a : α} {b : β}
    (hx : Settled x a) (hf : Settled (f a) b) : Settled (x >>= f) b := by
  rcases hx with hx | hx
  · rw [Settled, result_bind, hx]
    exact hf
  · exact Or.inr (by rw [result_bind, hx]; rfl)

theorem Settled.map {α β : Type} {x : Answer α} {a : α} (f : α → β) (hx : Settled x a) :
    Settled (f <$> x) (f a) := by
  rw [map_eq_pure_bind]
  exact hx.bind (Or.inl rfl)

/-- An answer that only stops for want of levels, and has no other result. -/
theorem Settled.of_stops {α : Type} {x : Answer α} {a : α} (hstops : x.Stops (· = .tooDeep))
    (hok : ∀ b, x.result = .ok b → b = a) : Settled x a := by
  cases hr : x.result with
  | error e => exact Or.inr (hr.trans (congrArg _ (hstops e hr)))
  | ok b => exact Or.inl (hr.trans (congrArg _ (hok b hr)))

variable {h k : Heap} {mode : Mode} {m n : Nat} {a a' b b' : Value} {op : Operator}

/-! ## Values of the same form -/

theorem not_holdsComplex (ha : h.PlainTree a) : ¬h.HoldsComplex a := by
  rintro ⟨s, re, im, hocc, hs⟩
  cases (ha.of_occurs hocc).isPlain hs

/-- Values of the same form are not below each other.  With enough levels it would be found that
they are equal. -/
theorem within_lt_of_alike (hc : h.Coherent) (ha : h.PlainTree a) (hb : h.PlainTree b)
    (hne : a ≠ b) (hab : h.Alike a b) : Settled (within h .total n a b .lt) false := by
  cases hr : (within h .total n a b .lt).result with
  | error e =>
    refine Or.inr (hr.trans (congrArg _ ?_))
    cases e with
    | fault f levels => exact absurd hr (within_faultless hc .total n a b .lt ha.names hb.names _ _)
    | error e =>
      cases within_blames h .total n a b .lt _ hr e rfl with
      | tooDeep => rfl
      | unordered _ hmode => cases hmode
      | complexOrdering _ hcomplex =>
        exact (hcomplex.elim (not_holdsComplex ha) (not_holdsComplex hb)).elim
  | ok r =>
    obtain ⟨m, ⟨hna, hnb⟩, hmn⟩ := ((ha.eventually_nesting_le.and hb.eventually_nesting_le).and
      (eventually_ge_atTop n)).exists
    have hlt := within_mono (Nat.le_succ_of_le hmn) hr
    have heq : (within h .total (m + 1) a b .eq).result = .ok true := by
      refine (within_eq_of_alike hc ha.names hb.names hne hab).resolve_right fun hdeep => ?_
      have hlevels {v : Value} (hv : h.nesting v ≤ m) : ¬((m + 1 : ℕ) : ℕ∞) ≤ h.nesting v :=
        not_le.2 (lt_of_le_of_lt hv (Nat.cast_lt.2 (Nat.lt_succ_self m)))
      cases within_blames h .total (m + 1) a b .eq _ hdeep _ rfl with
      | tooDeep hn => exact hn.elim (hlevels hna) (hlevels hnb)
    obtain ⟨v, w, hvw⟩ := within_balanced hc.keyed .total (m + 1) a b
    have hv : v = some .eq := Operator.reads_eq_iff.1 (hvw.left .eq true heq).symm
    rw [hvw.left .lt r hlt, hv] at hr
    exact Or.inl hr

/-- **Identity makes no difference to equality** of values of the same form. -/
theorem sameOrEqual_of_alike (hc : h.Coherent) (ha : h.Names a) (hb : h.Names b)
    (hab : h.Alike a b) : Settled (sameOrEqual (within h mode n) a b) true := by
  rw [sameOrEqual]
  by_cases heq : a = b
  · rw [if_pos (Value.isIdentical_iff.2 heq)]
    exact Or.inl rfl
  · rw [if_neg (mt Value.isIdentical_iff.1 heq)]
    exact within_eq_of_alike hc ha hb heq hab

/-- **Identity makes no difference to the order** of values of the same form. -/
theorem valueOrder_of_alike (hc : h.Coherent) (ha : h.PlainTree a) (hb : h.PlainTree b)
    (hab : h.Alike a b) : Settled (valueOrder (within h .total n) a b) .eq := by
  rw [valueOrder]
  by_cases heq : a = b
  · rw [if_pos (Value.isIdentical_iff.2 heq)]
    exact Or.inl rfl
  · rw [if_neg (mt Value.isIdentical_iff.1 heq)]
    refine (within_lt_of_alike hc ha hb heq hab).bind ?_
    exact (within_eq_of_alike hc ha.names hb.names heq hab).bind (Or.inl rfl)

/-! ## The fallback -/

/-- Behind the rules nothing but the types and the order of the two values is asked for. -/
theorem fallback_matches {s t : BuiltinType} (hc : h.Coherent) (ha : h.typeOf a = .ok (.builtin s))
    (ha' : k.typeOf a' = .ok (.builtin s)) (hb : h.typeOf b = .ok (.builtin t))
    (hb' : k.typeOf b' = .ok (.builtin t))
    (horder : mode = .total ∨ op.isEquality = true → fallbackOrder k a' b' = fallbackOrder h a b) :
    Matches .tooDeep Eq (fallback h mode n a b op) (fallback k mode m a' b' op) := by
  have hname {h : Heap} {v : Value} {ty : BuiltinType} (hty : h.typeOf v = .ok (.builtin ty)) :
      h.typeName v = .ok ty.name := by
    rw [Heap.typeName, hty]
    rfl
  cases hop : op.isEquality with
  | true =>
    obtain ⟨x, hx⟩ := exists_fallbackOrder hc (names_of_typeOf ha) (names_of_typeOf hb)
    have hx' := (horder (Or.inr hop)).trans hx
    have hid : a.isIdentical b = a'.isIdentical b' := by
      rw [Bool.eq_iff_iff, Value.isIdentical_iff, Value.isIdentical_iff, ← fallbackOrder_eq_iff hx,
        ← fallbackOrder_eq_iff hx']
    exact .ok (fallback_of_isEquality hop hx) (fallback_of_isEquality hop hx') (by rw [hid])
      False.elim
  | false =>
    cases mode with
    | total =>
      obtain ⟨x, hx⟩ := exists_fallbackOrder hc (names_of_typeOf ha) (names_of_typeOf hb)
      rw [fallback, fallback, horder (Or.inl rfl), hx]
      exact .refl fun _ _ => rfl
    | strict =>
      rw [fallback, fallback, hop, hname ha, hname hb, hname ha', hname hb']
      exact .refl fun _ _ => rfl

/-- The order that the fallback knows of two values of builtin types. -/
theorem fallbackOrder_of_builtin {s t : BuiltinType} (ha : h.typeOf a = .ok (.builtin s))
    (hb : h.typeOf b = .ok (.builtin t)) : fallbackOrder h a b =
      if a = b then .ok (.identical, .eq)
      else if s = t then .ok (.sameTypeIdentity, a.identity.order b.identity)
      else typeOrder h (.builtin s) (.builtin t) := by
  by_cases hab : a = b
  · rw [fallbackOrder, if_pos (Value.isIdentical_iff.2 hab), if_pos hab]
  · rw [fallbackOrder, if_neg (mt Value.isIdentical_iff.1 hab), if_neg hab, ha, hb]
    show (if TypeRef.builtin s = .builtin t then _ else _) = _
    simp only [TypeRef.builtin.injEq]

/-- The fallback knows the same order of twins, but for two references to contents of one type. -/
theorem fallbackOrder_twins (hc : h.Coherent) (hk : k.Coherent) (ha : h.Twins k a a')
    (hb : h.Twins k b b')
    (hrefs : ∀ s t, a = .ref s → b = .ref t → h.typeOf a ≠ h.typeOf b) :
    fallbackOrder k a' b' = fallbackOrder h a b := by
  obtain ⟨s, hs, hs'⟩ := ha.exists_typeOf hc hk
  obtain ⟨t, ht, ht'⟩ := hb.exists_typeOf hc hk
  rw [fallbackOrder_of_builtin hs ht, fallbackOrder_of_builtin hs' ht']
  rcases ha.cases hc hk with ⟨hslot, rfl⟩ | ⟨u, u', -, -, rfl, rfl, -⟩ <;>
    rcases hb.cases hc hk with ⟨hslot', rfl⟩ | ⟨w, w', -, -, rfl, rfl, -⟩
  · rfl
  · cases a <;> first | rfl | cases hslot
  · cases b <;> first | rfl | cases hslot'
  · -- identity is not asked for where the types are different
    have hst : s ≠ t := by
      rintro rfl
      exact hrefs u w rfl rfl (hs.trans ht.symm)
    have hdifferent {h : Heap} {u w : Slot} (hs : h.typeOf (.ref u) = .ok (.builtin s))
        (ht : h.typeOf (.ref w) = .ok (.builtin t)) : Value.ref u ≠ .ref w := fun heq =>
      hst (TypeRef.builtin.inj (Except.ok.inj (hs.symm.trans (heq ▸ ht))))
    rw [if_neg (hdifferent hs ht), if_neg (hdifferent hs' ht'), if_neg hst, if_neg hst]
    rfl

/-- Of two references to contents of one type the rules leave only the order of dicts open, and only
in strict mode. -/
theorem strict_of_undecided {judge : Judge} {s t : Slot} {p q : Payload} (hp : h.find? s = some p)
    (hq : h.find? t = some q) (hplain : p.isPlain = true) (hty : p.typeRef = q.typeRef)
    (hnone : (typeRule h n judge (.ref s) (.ref t) op).result = .ok none)
    (hthree : (threeWayRule h mode n judge (.ref s) (.ref t) op).result = .ok none) :
    mode = .strict ∧ op.isEquality = false := by
  cases hnum : p.typeRef.isNumeric with
  | true =>
    obtain ⟨i, hi⟩ := numberOf_of_isNumeric (Heap.typeOf_ref hp) hnum
    obtain ⟨j, hj⟩ := numberOf_of_isNumeric (Heap.typeOf_ref hq) (hty ▸ hnum)
    exact absurd hnone (typeRule_ne_none_of_numbers hi hj)
  | false =>
    have hkind : p.SameKind q := by
      refine (Payload.sameKind_of_typeRef hty hnum).resolve_right fun hnominal => ?_
      rw [Payload.isNominal_eq_false hplain] at hnominal
      cases hnominal.1
    rw [typeRule_contents hp hq hkind] at hnone
    have hdict : p.typeRef = .builtin .dict :=
      by_contra fun hne => payloadRule_ne_none hkind (Or.inr hne) hnone
    refine ⟨?_, Bool.eq_false_iff.2 fun hop => payloadRule_ne_none hkind (Or.inl hop) hnone⟩
    cases mode with
    | strict => rfl
    | total => cases hkind <;> cases hdict; exact absurd hthree (threeWayRule_ne_none hp hq)

/-! ## Twins -/

/-- Where values have different forms, neither they nor their twins are identical. -/
theorem identical_iff_of_not_alike (ha : h.Twins k a a') (hb : h.Twins k b b')
    (hne : ¬h.Alike a b) : a = b ↔ a' = b' := by
  refine iff_of_false ?_ ?_
  · rintro rfl
    exact hne (.refl h a)
  · rintro rfl
    exact hne ((ha.alike_iff hb).2 (.refl k a'))

/-- One level makes no difference between twins if the comparisons of the parts make none. -/
theorem dispatch_twins {judge judge' : Judge} (hc : h.Coherent) (hk : k.Coherent)
    (hsame : ∀ {x x' y y'}, h.Twins k x x' → h.Twins k y y' →
      Matches .tooDeep Eq (sameOrEqual judge x y) (sameOrEqual judge' x' y'))
    (hop : ∀ {x x' y y'} op, h.Twins k x x' → h.Twins k y y' →
      Matches .tooDeep Eq (judge x y op) (judge' x' y' op))
    (horder : mode = .total → ∀ {x x' y y'}, h.Twins k x x' → h.Twins k y y' →
      Matches .tooDeep Eq (valueOrder judge x y) (valueOrder judge' x' y'))
    (ha : h.Twins k a a') (hb : h.Twins k b b') :
    Matches .tooDeep Eq (dispatch h mode n judge a b op) (dispatch k mode m judge' a' b' op) := by
  have hrule {a a' b b' : Value} (ha : h.Twins k a a') (hb : h.Twins k b b') (op : Operator) :
      Matches .tooDeep Eq (typeRule h n judge a b op) (typeRule k m judge' a' b' op) :=
    typeRule_matches hsame (fun _ _ _ _ _ => hop op) (fun _ _ _ _ => .refl fun _ _ => rfl)
      (ha.counterpart hc hk) (hb.counterpart hc hk)
  obtain ⟨first, hfirst, hfirst'⟩ := ha.exists_typeOf hc hk
  obtain ⟨second, hsecond, hsecond'⟩ := hb.exists_typeOf hc hk
  have hlast (hrefs : mode = .total ∨ op.isEquality = true →
      ∀ s t, a = .ref s → b = .ref t → h.typeOf a ≠ h.typeOf b) :
      Matches .tooDeep Eq (fallback h mode n a b op) (fallback k mode m a' b' op) :=
    fallback_matches hc hfirst hfirst' hsecond hsecond' fun hmode =>
      fallbackOrder_twins hc hk ha hb (hrefs hmode)
  refine dispatch_matches (.look hfirst hfirst' rfl) (.look hsecond hsecond' rfl) ?_
    (hrule ha hb op) (hrule hb ha op.swapped) ?_ ?_
  · intro s t hs ht
    cases hfirst.symm.trans hs
    cases hsecond.symm.trans ht
    exact .pure rfl
  · intro ty hta htb hnone _
    refine Matches.decideOr ?_ fun hthree _ => hlast fun hmode s t hs ht _ => ?_
    · cases mode with
      | strict => exact .pure rfl
      | total =>
        exact threeWayRule_matches hsame (hop .lt) (horder rfl) (ha.counterpart hc hk)
          (hb.counterpart hc hk)
    · subst hs ht
      obtain ⟨p, hp, hpty⟩ := find?_of_typeOf hta
      obtain ⟨q, hq, hqty⟩ := find?_of_typeOf htb
      obtain ⟨rfl, hopen⟩ := strict_of_undecided hp hq (ha.left.isPlain hp)
        (hpty.trans hqty.symm) hnone hthree
      rw [hopen] at hmode
      exact hmode.elim nofun nofun
  · intro s t hne hs ht _ _
    refine hlast fun _ _ _ _ _ heq => hne ?_
    exact Except.ok.inj (hs.symm.trans (heq.trans ht))

/-- **A comparison makes no difference between twins**, whatever levels are left on either side. -/
theorem within_twins (mode : Mode) (n m : Nat) (op : Operator) (hc : h.Coherent)
    (hk : k.Coherent) (ha : h.Twins k a a') (hb : h.Twins k b b') :
    Matches .tooDeep Eq (within h mode n a b op) (within k mode m a' b' op) := by
  induction n generalizing m a a' b b' op with
  | zero =>
    have hleft : Counterpart .tooDeep (h.Twins k) h 0 k 0 a a' := ha.counterpart hc hk
    cases m <;> exact unlessInts_matches hleft (hb.counterpart hc hk) (.left rfl rfl)
  | succ n ih =>
    have hleft : Counterpart .tooDeep (h.Twins k) h 0 k 0 a a' := ha.counterpart hc hk
    cases m with
    | zero => exact unlessInts_matches hleft (hb.counterpart hc hk) (.right rfl rfl)
    | succ m =>
      refine unlessInts_matches hleft (hb.counterpart hc hk)
        (dispatch_twins hc hk ?_ (fun _ => ih m _) ?_ ha hb)
      · intro x x' y y' hx hy
        by_cases halike : h.Alike x y
        · have halike' := (hx.alike_iff hy).1 halike
          exact (sameOrEqual_of_alike hc hx.left.names hy.left.names halike).matches
            (sameOrEqual_of_alike hk hx.right.names hy.right.names halike')
        · exact sameOrEqual_matches (identical_iff_of_not_alike hx hy halike) (ih m _ hx hy)
      · rintro rfl x x' y y' hx hy
        by_cases halike : h.Alike x y
        · have halike' := (hx.alike_iff hy).1 halike
          exact (valueOrder_of_alike hc hx.left hy.left halike).matches
            (valueOrder_of_alike hk hx.right hy.right halike')
        · exact valueOrder_matches (identical_iff_of_not_alike hx hy halike) (ih m _ hx hy)
            (ih m _ hx hy)

end Compare

end ValueHeap
