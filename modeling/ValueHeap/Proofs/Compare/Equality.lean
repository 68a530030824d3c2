import ValueHeap.Proofs.Compare.Tables

/-!
# Equality compares forms

Whatever the mode and the number of levels, a result of `==` says whether the two values have the
same form.  The one exception is a value compared with itself, which need not come out equal: a NaN
does not.

The proof is by induction on the levels.  What one level does is put together from the rules: each
of them is right if the judge of the parts is.

## What is here

* `Compare.sequences_settles` — sequences, under any operator for which the judge is right.
* `Compare.payloadRule_settles_eq`, `Compare.typeRule_settles_eq` and `Compare.dispatch_settles_eq`
  — the rules, under `==`.
* `Compare.within_eqSound` — rich comparison.
-/

set_option autoImplicit false

namespace ValueHeap

open Filter Std

/-! ## Lists -/

theorem compare_map {α β : Type} [Ord α] [Ord β] {f : α → β}
    (hf : ∀ x y, compare (f x) (f y) = compare x y) (xs ys : List α) :
    compare (xs.map f) (ys.map f) = compare xs ys := by
  induction xs generalizing ys with
  | nil => cases ys <;> rfl
  | cons x xs ih =>
    cases ys with
    | nil => rfl
    | cons y ys =>
      rw [List.map_cons, List.map_cons, List.compare_cons_cons, List.compare_cons_cons, hf, ih]

theorem compare_ne_eq_of_length_ne {xs ys : List Form} (h : xs.length ≠ ys.length) :
    compare xs ys ≠ .eq := fun heq =>
  h (congrArg List.length (LawfulEqCmp.eq_of_compare heq))

namespace Compare

variable {h : Heap} {judge : Judge}

/-! ## Sequences -/

/-- The first items are the same, or else they decide. -/
theorem itemByItem_cons {op : Operator} {x y : Value} {xs ys : List Value} {r : Bool}
    (hr : (itemByItem judge op (x :: xs) (y :: ys)).result = .ok r) :
    ∃ same, (sameOrEqual judge x y).result = .ok same ∧
      (same = true → (itemByItem judge op xs ys).result = .ok r) ∧
      (same = false → (op = .eq ∧ r = false) ∨ (op = .ne ∧ r = true) ∨
        (op ≠ .eq ∧ op ≠ .ne ∧ (judge x y op).result = .ok r)) := by
  simp only [itemByItem] at hr
  obtain ⟨same, hsame, hr⟩ := Answer.result_bind_eq_ok.1 hr
  refine ⟨same, hsame, ?_, ?_⟩
  · rintro rfl
    exact hr
  · rintro rfl
    rw [if_neg Bool.false_ne_true] at hr
    cases op with
    | eq => exact Or.inl ⟨rfl, (Answer.result_pure_eq_ok.1 hr).symm⟩
    | ne => exact Or.inr (Or.inl ⟨rfl, (Answer.result_pure_eq_ok.1 hr).symm⟩)
    | _ => exact Or.inr (Or.inr ⟨by decide, by decide, hr⟩)

theorem itemByItem_settles {op : Operator} {xs ys : List Value} {r : Bool}
    (hj : EqSound h judge)
    (hop : ∀ x ∈ xs, ∀ y ∈ ys, ∀ r, op ≠ .eq → op ≠ .ne → (judge x y op).result = .ok r →
      h.Settles op r x y)
    (hr : (itemByItem judge op xs ys).result = .ok r) :
    ∀ᶠ n in atTop, r = op.holds (compare (xs.map (h.form n)) (ys.map (h.form n))) := by
  induction xs generalizing ys r with
  | nil =>
    cases ys with
    | nil =>
      rw [itemByItem, Answer.result_pure_eq_ok] at hr
      · exact Eventually.of_forall fun n => hr.symm
      · simp
    | cons y ys =>
      rw [itemByItem, Answer.result_pure_eq_ok] at hr
      · exact Eventually.of_forall fun n => hr.symm
      · simp
  | cons x xs ih =>
    cases ys with
    | nil =>
      rw [itemByItem, Answer.result_pure_eq_ok] at hr
      · exact Eventually.of_forall fun n => hr.symm
      · simp
    | cons y ys =>
      obtain ⟨same, hsame, hrest, hfirst⟩ := itemByItem_cons hr
      have hxy := sameOrEqual_settles hj hsame
      simp only [List.map_cons, List.compare_cons_cons]
      cases same with
      | true =>
        have hrest := ih (fun u hu v hv =>
          hop u (List.mem_cons_of_mem x hu) v (List.mem_cons_of_mem y hv)) (hrest rfl)
        filter_upwards [Heap.settles_eq_true.1 hxy, hrest] with n heq hn
        rw [hn, heq, compare_self, Ordering.eq_then]
      | false =>
        have hne := Heap.settles_eq_false.1 hxy
        -- the first pair with different forms decides
        have hhead : h.Settles op r x y := by
          rcases hfirst rfl with ⟨rfl, rfl⟩ | ⟨rfl, rfl⟩ | ⟨heq, hneq, hr⟩
          · exact hxy
          · filter_upwards [hxy] with n hn
            rw [Operator.holds_ne, ← hn]
            rfl
          · exact hop x List.mem_cons_self y List.mem_cons_self r heq hneq hr
        filter_upwards [hhead, hne] with n hn hform
        rw [hn]
        cases hc : compare (h.form n x) (h.form n y) with
        | eq => exact absurd (LawfulEqCmp.eq_of_compare hc) hform
        | lt => rfl
        | gt => rfl

/-- **Sequences compare as the lists of the forms of their items do.** -/
theorem sequences_settles {op : Operator} {xs ys : List Value} {r : Bool}
    (hj : EqSound h judge)
    (hop : ∀ x ∈ xs, ∀ y ∈ ys, ∀ r, op ≠ .eq → op ≠ .ne → (judge x y op).result = .ok r →
      h.Settles op r x y)
    (hr : (sequences judge op xs ys).result = .ok r) :
    ∀ᶠ n in atTop, r = op.holds (compare (xs.map (h.form n)) (ys.map (h.form n))) := by
  rw [sequences] at hr
  split at hr
  · next hlen =>
    rw [Answer.result_pure_eq_ok] at hr
    refine Eventually.of_forall fun n => ?_
    have hne : compare (xs.map (h.form n)) (ys.map (h.form n)) ≠ .eq :=
      compare_ne_eq_of_length_ne (by simpa using hlen.1)
    have heq := hlen.2
    rw [← hr]
    cases op <;> simp [Operator.isEquality, Operator.holds] at heq hne ⊢
    · exact hne
    · exact hne
  · exact itemByItem_settles hj hop hr

/-! ## Leaves -/

/-- Two numbers are equal as their digits say, unless they are one value. -/
theorem numbers_settle_eq {a b : Value} {m n : Number} (hab : a ≠ b)
    (hm : numberOf h a = .ok (some m)) (hn : numberOf h b = .ok (some n)) :
    h.Settles .eq (Number.holds .eq m n) a b := by
  rw [Heap.settles_eq_iff]
  refine Eventually.of_forall fun depth => ?_
  have hform : h.form depth a = h.form depth b ↔ m.digits a.tag = n.digits b.tag := by
    rw [← Std.compare_eq_iff_eq, Heap.compare_of_numbers hm hn, Std.compare_eq_iff_eq]
  rw [hform, Number.holds_eq]
  by_cases hnan : m.isNaN = true ∨ n.isNaN = true
  · rw [Number.equal_of_isNaN hnan]
    simp only [Bool.false_eq_true, false_iff]
    intro hd
    have hmn : m.isNaN = true := hnan.elim id fun hn => Number.isNaN_eq_of_digits hd ▸ hn
    exact hab (Heap.eq_of_digits_of_isNaN hm hn hmn hd)
  · rw [not_or, Bool.not_eq_true, Bool.not_eq_true] at hnan
    exact Number.equal_iff_digits _ _ hnan.1 hnan.2

theorem labelOf_str_order (s t : Slot) (x y : String) :
    (h.labelOf s (.str x)).order (h.labelOf t (.str y)) = compare x y := by
  simp [Form.Label.order_def, Heap.labelOf, Form.Label.typed]

theorem labelOf_bytes_order (s t : Slot) (x y : List UInt8) :
    (h.labelOf s (.bytes x)).order (h.labelOf t (.bytes y)) = compare x y := by
  have hbyte (b c : UInt8) : compare (b.toNat : Int) c.toNat = compare b c := by
    simp only [compare, compareOfLessAndEq, Int.ofNat_lt, Int.ofNat_inj, UInt8.toNat_inj,
      UInt8.lt_iff_toNat_lt]
  simp [Form.Label.order_def, Heap.labelOf, Form.Label.typed, TypeRef.digits,
    List.compare_cons_cons, compare_map hbyte]

theorem labelOf_range_order (s t : Slot) (x y : Progression) :
    (h.labelOf s (.range x)).order (h.labelOf t (.range y)) = x.order y := by
  simp [Form.Label.order_def, Heap.labelOf, Form.Label.typed, TypeRef.digits,
    List.compare_cons_cons, Progression.order_eq_compare_digits]

/-! ## The rules under `==` -/

section Contents

variable {s t : Slot} {p q : Payload}

theorem dicts_settle_eq {x y : List Entry} {r : Bool} (hp : h.find? s = some (.dict x))
    (hq : h.find? t = some (.dict y))
    (hr : ∀ᶠ n in atTop, (r = true ↔ (x.map (h.entryForm n)).Perm (y.map (h.entryForm n)))) :
    h.Settles .eq r (.ref s) (.ref t) := by
  by_cases hlen : x.length = y.length
  · have hl : h.labelOf s (.dict x) = h.labelOf t (.dict y) := by
      rw [Heap.labelOf, Heap.labelOf, hlen]
    refine Heap.settles_of_parts hp hq hl (hr.mono fun n hn => ?_)
    rw [Heap.holds_eq_iff, hn, Std.compare_eq_iff_eq]
    exact Form.sort_eq_iff.symm
  · have hl : h.label (.ref s) ≠ h.label (.ref t) := by
      rw [Heap.label_ref hp, Heap.label_ref hq]
      simpa [Heap.labelOf, Form.Label.typed] using hlen
    refine Heap.settles_of_label_ne hl ?_
    obtain ⟨n, hn⟩ := hr.exists
    rw [Heap.holds_eq_iff, Form.Label.order_eq_iff, hn]
    constructor
    · intro hperm
      exact absurd (by simpa using hperm.length_eq) hlen
    · exact fun heq => absurd heq hl

theorem payloadRule_settles_eq {r : Bool} (hj : EqSound h judge) (hp : h.find? s = some p)
    (hq : h.find? t = some q) (hpk : h.KeysFit p.keys) (hqk : h.KeysFit q.keys)
    (hr : (payloadRule judge .eq p q).result = .ok (some r)) :
    h.Settles .eq r (.ref s) (.ref t) := by
  have hnever {xs ys : List Value} : ∀ x ∈ xs, ∀ y ∈ ys, ∀ r, Operator.eq ≠ .eq →
      Operator.eq ≠ .ne → (judge x y .eq).result = .ok r → h.Settles .eq r x y :=
    fun _ _ _ _ _ hne => absurd rfl hne
  simp only [payloadRule] at hr
  split at hr
  · rw [Answer.result_pure_eq_ok, Option.some_inj] at hr
    refine Heap.settles_of_leaves hp hq (fun _ => rfl) (fun _ => rfl) ?_
    rw [labelOf_str_order, hr]
  · rw [Answer.result_pure_eq_ok, Option.some_inj] at hr
    refine Heap.settles_of_leaves hp hq (fun _ => rfl) (fun _ => rfl) ?_
    rw [labelOf_bytes_order, hr]
  · obtain ⟨r', hr', hrr⟩ := Answer.result_map_eq_ok.1 hr
    cases hrr
    exact Heap.settles_of_parts hp hq rfl (sequences_settles hj hnever hr')
  · obtain ⟨r', hr', hrr⟩ := Answer.result_map_eq_ok.1 hr
    cases hrr
    exact Heap.settles_of_parts hp hq rfl (sequences_settles hj hnever hr')
  · obtain ⟨r', hr', hrr⟩ := Answer.result_map_eq_ok.1 hr
    cases hrr
    exact Heap.settles_of_parts hp hq rfl (sequences_settles hj hnever hr')
  · rw [if_pos (by rfl)] at hr
    obtain ⟨r', hr', hrr⟩ := Answer.result_map_eq_ok.1 hr
    have hrr : r' = r := by simpa using hrr
    subst hrr
    exact dicts_settle_eq hp hq (dictsEqual_settles hj hpk hqk hr')
  · obtain ⟨r', hr', hrr⟩ := Answer.result_map_eq_ok.1 hr
    cases hrr
    refine Heap.settles_of_parts hp hq rfl ?_
    filter_upwards [setsEqual_settles hj hpk hqk hr'] with n hn
    rw [Heap.holds_eq_iff, hn, Std.compare_eq_iff_eq]
    exact Form.sort_eq_iff.symm
  · rw [Answer.result_pure_eq_ok, Option.some_inj] at hr
    refine Heap.settles_of_leaves hp hq (fun _ => rfl) (fun _ => rfl) ?_
    rw [labelOf_range_order, hr]
  · cases hr

end Contents

/-! ## The rule of a type -/

/-- Contents of the same kind are compared by the rule of their kind, except that two dicts are
left to total mode when they are to be ordered. -/
theorem payloadRule_ne_none {op : Operator} {p q : Payload} (hk : p.SameKind q)
    (hop : op.isEquality = true ∨ p.typeRef ≠ .builtin .dict) :
    (payloadRule judge op p q).result ≠ .ok none := by
  intro hr
  cases hk with
  | str x y => cases hr
  | bytes x y => cases hr
  | range x y => cases hr
  | dict x y =>
    rw [payloadRule, if_pos (hop.resolve_right fun hne => hne rfl), Answer.result_map_eq_ok] at hr
    obtain ⟨r, -, hr⟩ := hr
    cases hr
  | _ =>
    rw [payloadRule, Answer.result_map_eq_ok] at hr
    obtain ⟨r, -, hr⟩ := hr
    cases hr

theorem numberOf_ref {s : Slot} {p : Payload} (hp : h.find? s = some p)
    (hnum : p.typeRef.isNumeric = false) : numberOf h (.ref s) = .ok none := by
  rw [numberOf, Heap.read_eq_ok_iff.2 hp]
  cases p <;> first | rfl | cases hnum

variable {levels : Nat} {a b : Value} {op : Operator}

/-- The rule for two references to contents of the same kind is that of their kind. -/
theorem typeRule_contents {s t : Slot} {p q : Payload} (hp : h.find? s = some p)
    (hq : h.find? t = some q) (hk : p.SameKind q) :
    (typeRule h levels judge (.ref s) (.ref t) op).result =
      (payloadRule judge op p q).result := by
  have hnum : p.typeRef.isNumeric = false := by cases hk <;> rfl
  have hread : h.read s = .ok p := Heap.read_eq_ok_iff.2 hp
  have hread' : h.read t = .ok q := Heap.read_eq_ok_iff.2 hq
  rw [typeRule, numberOf_ref hp hnum]
  simp only [Answer.look, hread, referenceRule, hread']
  cases hk <;> rfl

/-- Where the rule of a type says something, it is the rule for numbers, for what is only equal to
itself, or for contents. -/
theorem typeRule_some {r : Bool}
    (hr : (typeRule h levels judge a b op).result = .ok (some r)) :
    (∃ m n, numberOf h a = .ok (some m) ∧ numberOf h b = .ok (some n) ∧
        (numberRule m n op).result = .ok (some r)) ∨
      (a = b ∧ op.isEquality = true ∧ r = (op == .eq)) ∨
      ∃ s t p q, a = .ref s ∧ b = .ref t ∧ h.find? s = some p ∧ h.find? t = some q ∧
        (payloadRule judge op p q).result = .ok (some r) := by
  have hidentity (hrule : identityRule a b op = some r) :
      a = b ∧ op.isEquality = true ∧ r = (op == .eq) := by
    rw [identityRule] at hrule
    split at hrule
    · next hc =>
      rw [Bool.and_eq_true, Value.isIdentical_iff] at hc
      exact ⟨hc.1, hc.2, (Option.some.inj hrule).symm⟩
    · cases hrule
  simp only [typeRule] at hr
  obtain ⟨left, hleft, hr⟩ := Answer.result_bind_eq_ok.1 hr
  rw [Answer.result_look_eq_ok] at hleft
  cases left with
  | some m =>
    obtain ⟨right, hright, hr⟩ := Answer.result_bind_eq_ok.1 hr
    rw [Answer.result_look_eq_ok] at hright
    cases right with
    | some n => exact Or.inl ⟨m, n, hleft, hright, hr⟩
    | none => cases hr
  | none =>
    refine Or.inr ?_
    cases a with
    | ref s =>
      obtain ⟨p, hp, hr⟩ := Answer.result_bind_eq_ok.1 hr
      rw [Answer.result_look_eq_ok, Heap.read_eq_ok_iff] at hp
      simp only [referenceRule] at hr
      cases b with
      | ref t =>
        obtain ⟨other, hother, hr⟩ := Answer.result_bind_eq_ok.1 hr
        obtain ⟨q, hq, rfl⟩ := Answer.result_map_eq_ok.1 hother
        rw [Answer.result_look_eq_ok, Heap.read_eq_ok_iff] at hq
        cases p with
        | userClass => exact Or.inl (hidentity (Answer.result_pure_eq_ok.1 hr))
        | userInstance => exact Or.inl (hidentity (Answer.result_pure_eq_ok.1 hr))
        | _ => exact Or.inr ⟨s, t, _, q, rfl, rfl, hp, hq, hr⟩
      | _ =>
        cases p with
        | userClass => exact Or.inl (hidentity (Answer.result_pure_eq_ok.1 hr))
        | userInstance => exact Or.inl (hidentity (Answer.result_pure_eq_ok.1 hr))
        | _ => cases hr
    | _ => exact Or.inl (hidentity (Answer.result_pure_eq_ok.1 hr))

/-- The rule for two numbers is that for numbers. -/
theorem typeRule_numbers {m n : Number} (hm : numberOf h a = .ok (some m))
    (hn : numberOf h b = .ok (some n)) :
    typeRule h levels judge a b op = numberRule m n op := by
  unfold typeRule
  rw [hm]
  show Answer.look levels (numberOf h b) >>= _ = _
  rw [hn]
  rfl

/-- The rule of a type says something of two numbers. -/
theorem typeRule_ne_none_of_numbers {m n : Number} (hm : numberOf h a = .ok (some m))
    (hn : numberOf h b = .ok (some n)) :
    (typeRule h levels judge a b op).result ≠ .ok none := by
  rw [typeRule_numbers hm hn, numberRule]
  split
  · exact Answer.result_raise_ne_ok
  · intro hr
    cases hr

/-- When the rule of a type leaves `==` open, the labels tell the values apart, unless there is
only one value. -/
theorem label_ne_of_typeRule_none (hr : (typeRule h levels judge a b .eq).result = .ok none)
    (ha : h.Names a) (hab : a ≠ b) : h.label a ≠ h.label b := by
  intro hl
  cases Heap.matched_of_label_eq ha (Heap.names_of_label_eq ha hl) hl with
  | number hm hn hd => exact typeRule_ne_none_of_numbers hm hn hr
  | immediate hi => exact hab rfl
  | nominal hp hq hpn hqn => exact hab rfl
  | contents hp hq hk hc =>
    rw [typeRule_contents hp hq hk] at hr
    exact payloadRule_ne_none hk (Or.inl rfl) hr

/-- **The rule of a type is right about `==`.** -/
theorem typeRule_settles_eq {r : Bool} (hk : h.Keyed) (hj : EqSound h judge) (hab : a ≠ b)
    (hr : (typeRule h levels judge a b .eq).result = .ok (some r)) : h.Settles .eq r a b := by
  rcases typeRule_some hr with ⟨m, n, hm, hn, hr⟩ | ⟨heq, -, -⟩ |
    ⟨s, t, p, q, rfl, rfl, hp, hq, hr⟩
  · have hholds : Number.holds .eq m n = r := by
      rw [numberRule, if_neg (by simp [Operator.isEquality])] at hr
      exact Option.some.inj (Answer.result_pure_eq_ok.1 hr)
    exact hholds ▸ numbers_settle_eq hab hm hn
  · exact absurd heq hab
  · exact payloadRule_settles_eq hj hp hq (hk s p hp) (hk t q hq) hr

/-! ## One level -/

section Dispatch

variable {mode : Mode}

/-- Where the result of one level comes from: a rule of either type, the order of dicts, or the
fallback, for which the rules have left the question open. -/
theorem dispatch_cases {r : Bool} (hr : (dispatch h mode levels judge a b op).result = .ok r) :
    ∃ first second, h.typeOf a = .ok first ∧ h.typeOf b = .ok second ∧
      ((typeRule h levels judge a b op).result = .ok (some r) ∨
        (first ≠ second ∧ (typeRule h levels judge b a op.swapped).result = .ok (some r)) ∨
        (first = second ∧ (typeRule h levels judge a b op).result = .ok none ∧
          (threeWayRule h mode levels judge a b op).result = .ok (some r)) ∨
        ((typeRule h levels judge a b op).result = .ok none ∧
          (first = second → (threeWayRule h mode levels judge a b op).result = .ok none) ∧
          (first ≠ second → (typeRule h levels judge b a op.swapped).result = .ok none) ∧
          (fallback h mode levels a b op).result = .ok r)) := by
  rw [dispatch] at hr
  obtain ⟨first, hfirst, hr⟩ := Answer.result_bind_eq_ok.1 hr
  obtain ⟨second, hsecond, hr⟩ := Answer.result_bind_eq_ok.1 hr
  rw [Answer.result_look_eq_ok] at hfirst hsecond
  refine ⟨first, second, hfirst, hsecond, ?_⟩
  split at hr
  · next heq =>
    rcases Answer.result_decideOr_eq_ok.1 hr with hr | ⟨hnone, hr⟩
    · exact Or.inl hr
    · rcases Answer.result_decideOr_eq_ok.1 hr with hr | ⟨hthree, hr⟩
      · exact Or.inr (Or.inr (Or.inl ⟨heq, hnone, hr⟩))
      · exact Or.inr (Or.inr (Or.inr ⟨hnone, fun _ => hthree, fun hne => absurd heq hne, hr⟩))
  · next hne =>
    obtain ⟨below, -, hr⟩ := Answer.result_bind_eq_ok.1 hr
    cases below with
    | true =>
      rw [if_pos rfl] at hr
      rcases Answer.result_decideOr_eq_ok.1 hr with hr | ⟨hother, hr⟩
      · exact Or.inr (Or.inl ⟨hne, hr⟩)
      · rcases Answer.result_decideOr_eq_ok.1 hr with hr | ⟨hnone, hr⟩
        · exact Or.inl hr
        · exact Or.inr (Or.inr (Or.inr ⟨hnone, fun heq => absurd heq hne, fun _ => hother, hr⟩))
    | false =>
      rw [if_neg Bool.false_ne_true] at hr
      rcases Answer.result_decideOr_eq_ok.1 hr with hr | ⟨hnone, hr⟩
      · exact Or.inl hr
      · rcases Answer.result_decideOr_eq_ok.1 hr with hr | ⟨hother, hr⟩
        · exact Or.inr (Or.inl ⟨hne, hr⟩)
        · exact Or.inr (Or.inr (Or.inr ⟨hnone, fun heq => absurd heq hne, fun _ => hother, hr⟩))

theorem names_of_typeOf {v : Value} {ty : TypeRef} (hty : h.typeOf v = .ok ty) : h.Names v := by
  rintro s rfl
  rw [Heap.typeOf] at hty
  cases hp : h.read s with
  | error f => simp [hp, Except.map] at hty
  | ok p => exact Option.isSome_iff_exists.2 ⟨p, Heap.read_eq_ok_iff.1 hp⟩

/-- The order of two different types never comes out equal. -/
theorem typeOrder_ne_eq {first second : TypeRef} {rule : FallbackRule} {o : Ordering}
    (hne : first ≠ second) (ho : typeOrder h first second = .ok (rule, o)) : o ≠ .eq := by
  have horder : first.order second ≠ .eq := by
    intro heq
    refine hne ?_
    cases first <;> cases second <;> simp [TypeRef.order] at heq ⊢
    · exact BuiltinType.rank_inj heq
    · exact heq
  rw [typeOrder] at ho
  split at ho
  · cases ho
    decide
  · split at ho
    · cases ho
      decide
    · split at ho
      · cases ho
        exact horder
      · cases ho
        decide
      · cases ho
        decide
      · obtain ⟨left, -, ho⟩ := bind_eq_ok.1 ho
        obtain ⟨right, -, ho⟩ := bind_eq_ok.1 ho
        split at ho
        · cases ho
          exact horder
        · next hc =>
          cases ho
          exact hc

/-- Identities compare equal only when they are. -/
theorem identity_order_eq {x y : Identity} (hxy : x.order y = .eq) : x = y := by
  cases x <;> cases y <;> simp [Identity.order] at hxy ⊢
  · exact ⟨BuiltinType.rank_inj hxy.1, UInt64.toNat_inj.1 hxy.2⟩
  · exact hxy

/-- Two different values never come out equal in the order of the fallback. -/
theorem fallbackOrder_ne_eq {rule : FallbackRule} {o : Ordering} (hab : a ≠ b)
    (ho : fallbackOrder h a b = .ok (rule, o)) : o ≠ .eq := by
  rw [fallbackOrder, if_neg (by simp [Value.isIdentical_eq_false hab])] at ho
  obtain ⟨first, -, ho⟩ := bind_eq_ok.1 ho
  obtain ⟨second, -, ho⟩ := bind_eq_ok.1 ho
  split at ho
  · cases ho
    exact fun heq => hab (Value.identity_injective (identity_order_eq heq))
  · next hne => exact typeOrder_ne_eq hne ho

/-- By the fallback rules a value is equal to itself only. -/
theorem fallback_eq {r : Bool} (hr : (fallback h mode levels a b .eq).result = .ok r)
    (hab : a ≠ b) : r = false := by
  simp only [fallback] at hr
  cases mode with
  | strict =>
    rw [if_pos (by rfl)] at hr
    obtain ⟨-, -, hr⟩ := Answer.result_bind_eq_ok.1 hr
    rw [Answer.result_pure_eq_ok] at hr
    rw [← hr, Value.isIdentical_eq_false hab]
    rfl
  | total =>
    obtain ⟨⟨rule, o⟩, ho, hr⟩ := Answer.result_bind_eq_ok.1 hr
    obtain ⟨-, -, hr⟩ := Answer.result_bind_eq_ok.1 hr
    rw [Answer.result_look_eq_ok] at ho
    rw [Answer.result_pure_eq_ok] at hr
    have hne := fallbackOrder_ne_eq hab ho
    rw [← hr]
    cases o <;> first | rfl | exact absurd rfl hne

/-- One level is right about `==` if the level below is. -/
theorem dispatch_settles_eq {r : Bool} (hk : h.Keyed) (hj : EqSound h judge) (hab : a ≠ b)
    (hr : (dispatch h mode levels judge a b .eq).result = .ok r) : h.Settles .eq r a b := by
  obtain ⟨first, second, hfirst, -, hr⟩ := dispatch_cases hr
  rcases hr with hr | ⟨-, hr⟩ | ⟨-, hnone, hr⟩ | ⟨hnone, -, -, hr⟩
  · exact typeRule_settles_eq hk hj hab hr
  · exact (typeRule_settles_eq hk hj hab.symm hr).swap
  · -- two dicts are not left open under `==`
    exfalso
    simp only [threeWayRule] at hr
    split at hr
    · next s t =>
      obtain ⟨p, hp, hr⟩ := Answer.result_bind_eq_ok.1 hr
      obtain ⟨q, hq, hr⟩ := Answer.result_bind_eq_ok.1 hr
      rw [Answer.result_look_eq_ok, Heap.read_eq_ok_iff] at hp hq
      split at hr
      · rw [typeRule_contents hp hq (.dict _ _)] at hnone
        exact payloadRule_ne_none (.dict _ _) (Or.inl rfl) hnone
      · cases hr
    · cases hr
  · rw [fallback_eq hr hab, Heap.settles_eq_false]
    have hl := label_ne_of_typeRule_none hnone (names_of_typeOf hfirst) hab
    exact Eventually.of_forall fun n heq => hl (Heap.label_eq_of_form_eq heq)

/-- Two machine integers are compared on the spot, and every other pair is handed on. -/
theorem unlessInts_cases {r : Bool} (hr : (unlessInts judge a b op).result = .ok r) :
    (∃ m n : Int64, a = .int m ∧ b = .int n ∧ r = Number.holds op (.int m.toInt) (.int n.toInt)) ∨
      (judge a b op).result = .ok r := by
  simp only [unlessInts] at hr
  split at hr
  · exact Or.inl ⟨_, _, rfl, rfl, (Answer.result_pure_eq_ok.1 hr).symm⟩
  · exact Or.inr hr

/-- **Rich equality says whether two values have the same form**, in either mode and with any
number of levels. -/
theorem within_eqSound (hk : h.Keyed) (mode : Mode) (n : Nat) : EqSound h (within h mode n) := by
  induction n with
  | zero =>
    intro a b r hr hab
    rw [within] at hr
    rcases unlessInts_cases hr with ⟨m, n, rfl, rfl, rfl⟩ | hr
    · exact numbers_settle_eq hab rfl rfl
    · exact absurd hr Answer.result_refuse_ne_ok
  | succ n ih =>
    intro a b r hr hab
    rw [within] at hr
    rcases unlessInts_cases hr with ⟨m, n, rfl, rfl, rfl⟩ | hr
    · exact numbers_settle_eq hab rfl rfl
    · exact dispatch_settles_eq hk ih hab hr

end Dispatch

end Compare

end ValueHeap
