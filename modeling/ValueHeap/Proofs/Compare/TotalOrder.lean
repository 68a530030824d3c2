import ValueHeap.Proofs.Compare.DictOrder

/-!
# Total mode orders by forms

Among values that contain no set, no complex number and no NaN, total mode is right under every
operator: a result says how the forms of the two values compare.  Forms are linearly ordered, so
total mode is a linear order there, as far as it answers.

Values that no rule orders are left to the fallback.  It compares them as their labels do, and by
the time it is asked the labels are known to differ.

## What is here

* `Heap.Occurs` and `Heap.Orderable` — the parts of a value, and the values without the parts that
  have no place in the order.
* `Compare.fallback_settles` — the fallback, where the rules have left a question open.
* `Compare.dispatch_settles` — one level.
* `Compare.within_orderSound` — rich comparison in total mode.
-/

set_option autoImplicit false

namespace ValueHeap

open Filter Std

namespace Heap

/-- A value occurs in another one, at any depth. -/
inductive Occurs (h : Heap) (w : Value) : Value → Prop
  | self : Occurs h w w
  | part {s : Slot} {p : Payload} {x : Value} (hp : h.find? s = some p) (hx : x ∈ p.parts)
      (hw : Occurs h w x) : Occurs h w (.ref s)

/-- No set, no complex number and no NaN occurs in a value. -/
def Orderable (h : Heap) (v : Value) : Prop :=
  ∀ w, h.Occurs w v → (∀ x, w = .float x → x.isNaN = false) ∧
    ∀ s, w = .ref s → ∀ p, h.find? s = some p →
      p.typeRef ≠ .builtin .set ∧ p.typeRef ≠ .builtin .complex

variable {h : Heap} {s : Slot} {p : Payload} {v x : Value}

theorem Occurs.trans {w : Value} (hwx : h.Occurs w x) (hxv : h.Occurs x v) : h.Occurs w v := by
  induction hxv with
  | self => exact hwx
  | part hp hx _ ih => exact .part hp hx ih

theorem orderable_immediate (hslot : v.slot? = none)
    (hfloat : ∀ x, v = .float x → x.isNaN = false) : h.Orderable v := by
  intro w hw
  cases hw with
  | self =>
    refine ⟨hfloat, fun s hs => ?_⟩
    rw [hs] at hslot
    cases hslot
  | part => cases hslot

theorem orderable_ref (hp : h.find? s = some p)
    (hty : p.typeRef ≠ .builtin .set ∧ p.typeRef ≠ .builtin .complex)
    (hparts : ∀ x ∈ p.parts, h.Orderable x) : h.Orderable (.ref s) := by
  intro w hw
  cases hw with
  | self =>
    constructor
    · intro x hx
      cases hx
    · rintro t ht q hq
      cases ht
      cases hp.symm.trans hq
      exact hty
  | part hp' hx hw =>
    cases hp.symm.trans hp'
    exact hparts _ hx w hw

theorem Orderable.part (hv : h.Orderable (.ref s)) (hp : h.find? s = some p) (hx : x ∈ p.parts) :
    h.Orderable x :=
  fun w hw => hv w (.part hp hx hw)

theorem Orderable.payload (hv : h.Orderable (.ref s)) (hp : h.find? s = some p) :
    p.typeRef ≠ .builtin .set ∧ p.typeRef ≠ .builtin .complex :=
  (hv _ .self).2 s rfl p hp

theorem Orderable.number (hv : h.Orderable v) {m : Number}
    (hm : Compare.numberOf h v = .ok (some m)) : m.isComplex = false ∧ m.isNaN = false := by
  cases v with
  | ref s =>
    rw [Compare.numberOf] at hm
    cases hp : h.read s with
    | error f => simp [hp, Except.map] at hm
    | ok p =>
      have hc := (hv.payload (read_eq_ok_iff.1 hp)).2
      cases p <;> simp [hp, Except.map] at hm <;> subst hm
      · exact ⟨rfl, rfl⟩
      · exact absurd rfl hc
  | float y => cases hm; exact ⟨rfl, (hv _ .self).1 y rfl⟩
  | bool b => cases hm; exact ⟨rfl, rfl⟩
  | int n => cases hm; exact ⟨rfl, rfl⟩
  | _ => cases hm

end Heap

namespace Compare

variable {h : Heap} {judge : Judge} {levels : Nat} {a b : Value} {op : Operator} {r : Bool}

/-! ## Rules -/

theorem numbers_settle {m n : Number} (ha : h.Orderable a) (hb : h.Orderable b)
    (hm : numberOf h a = .ok (some m)) (hn : numberOf h b = .ok (some n)) :
    h.Settles op (Number.holds op m n) a b := by
  obtain ⟨hmc, hmn⟩ := ha.number hm
  obtain ⟨hnc, hnn⟩ := hb.number hn
  refine Eventually.of_forall fun depth => ?_
  rw [Heap.compare_of_numbers hm hn, ← Number.holds_of_real _ _ op hmc hnc hmn hnn]

theorem dicts_settle {s t : Slot} {x y : List Entry} {o : Ordering}
    (hp : h.find? s = some (.dict x)) (hq : h.find? t = some (.dict y))
    (ho : ∀ᶠ n in atTop, o = (compare x.length y.length).then
      (compare (Form.sort (x.map (h.entryForm n))) (Form.sort (y.map (h.entryForm n))))) :
    h.Settles op (op.holds o) (.ref s) (.ref t) := by
  have hlabel : (h.labelOf s (.dict x)).order (h.labelOf t (.dict y)) =
      compare x.length y.length := by
    have hnat (m n : Nat) : compare (m : Int) n = compare m n := by
      simp only [compare, compareOfLessAndEq, Int.ofNat_lt, Int.ofNat_inj]
    simp [Form.Label.order_def, Heap.labelOf, Form.Label.typed, TypeRef.digits,
      List.compare_cons_cons, hnat]
  refine eventually_of_succ (ho.mono fun n hn => ?_)
  rw [Heap.form_ref hp, Heap.form_ref hq, Form.compare_node, hlabel, hn]
  rfl

theorem holds_of_equality (hop : op.isEquality = true) (o : Ordering) :
    (Operator.eq.holds o == (op == .eq)) = op.holds o := by
  cases op <;> simp [Operator.isEquality] at hop <;> cases o <;> rfl

theorem payloadRule_settles {s t : Slot} {p q : Payload} (hk : h.Keyed) (hj : EqSound h judge)
    (ho : OrderSound h h.Orderable judge) (ha : h.Orderable (.ref s)) (hb : h.Orderable (.ref t))
    (hp : h.find? s = some p) (hq : h.find? t = some q)
    (hr : (payloadRule judge op p q).result = .ok (some r)) :
    h.Settles op r (.ref s) (.ref t) := by
  have hparts {x y : Value} (hx : x ∈ p.parts) (hy : y ∈ q.parts) (r : Bool) (_ : op ≠ .eq)
      (_ : op ≠ .ne) (hr : (judge x y op).result = .ok r) : h.Settles op r x y :=
    ho x y op r (ha.part hp hx) (hb.part hq hy) hr
  simp only [payloadRule] at hr
  split at hr
  · rw [Answer.result_pure_eq_ok, Option.some_inj] at hr
    refine Heap.settles_of_leaves hp hq (fun _ => rfl) (fun _ => rfl) ?_
    rw [labelOf_str_order, hr]
  · rw [Answer.result_pure_eq_ok, Option.some_inj] at hr
    refine Heap.settles_of_leaves hp hq (fun _ => rfl) (fun _ => rfl) ?_
    rw [labelOf_bytes_order, hr]
  · obtain ⟨r', hr', hrr⟩ := Answer.result_map_eq_ok.1 hr
    cases hrr
    exact Heap.settles_of_parts hp hq rfl
      (sequences_settles hj (fun x hx y hy => hparts hx hy) hr')
  · obtain ⟨r', hr', hrr⟩ := Answer.result_map_eq_ok.1 hr
    cases hrr
    exact Heap.settles_of_parts hp hq rfl
      (sequences_settles hj (fun x hx y hy => hparts hx hy) hr')
  · obtain ⟨r', hr', hrr⟩ := Answer.result_map_eq_ok.1 hr
    cases hrr
    exact Heap.settles_of_parts hp hq rfl
      (sequences_settles hj (fun x hx y hy => hparts hx hy) hr')
  · split at hr
    · next hop =>
      obtain ⟨r', hr', hrr⟩ := Answer.result_map_eq_ok.1 hr
      cases hrr
      have heq := dicts_settle_eq hp hq
        (dictsEqual_settles hj (hk _ _ hp) (hk _ _ hq) hr')
      filter_upwards [heq] with n hn
      rw [hn, holds_of_equality hop]
    · cases hr
  · exact absurd rfl (ha.payload hp).1
  · rw [Answer.result_pure_eq_ok, Option.some_inj] at hr
    refine Heap.settles_of_leaves hp hq (fun _ => rfl) (fun _ => rfl) ?_
    rw [labelOf_range_order, hr]
  · cases hr

theorem typeRule_settles (hk : h.Keyed) (hj : EqSound h judge)
    (ho : OrderSound h h.Orderable judge) (ha : h.Orderable a) (hb : h.Orderable b)
    (hr : (typeRule h levels judge a b op).result = .ok (some r)) : h.Settles op r a b := by
  rcases typeRule_some hr with ⟨m, n, hm, hn, hr⟩ | ⟨rfl, hop, rfl⟩ |
    ⟨s, t, p, q, rfl, rfl, hp, hq, hr⟩
  · rw [numberRule, (ha.number hm).1, (hb.number hn).1] at hr
    rw [← Option.some.inj (Answer.result_pure_eq_ok.1 hr)]
    exact numbers_settle ha hb hm hn
  · rw [show (op == .eq) = op.holds .eq by cases op <;> first | rfl | cases hop]
    exact Heap.Settles.refl h a op
  · exact payloadRule_settles hk hj ho ha hb hp hq hr

theorem threeWayRule_some {mode : Mode}
    (hr : (threeWayRule h mode levels judge a b op).result = .ok (some r)) :
    mode = .total ∧ ∃ s t x y o, a = .ref s ∧ b = .ref t ∧ h.find? s = some (.dict x) ∧
      h.find? t = some (.dict y) ∧ (dictOrder judge x y).result = .ok o ∧ r = op.holds o := by
  simp only [threeWayRule] at hr
  split at hr
  · next s t =>
    obtain ⟨p, hp, hr⟩ := Answer.result_bind_eq_ok.1 hr
    obtain ⟨q, hq, hr⟩ := Answer.result_bind_eq_ok.1 hr
    rw [Answer.result_look_eq_ok, Heap.read_eq_ok_iff] at hp hq
    split at hr
    · obtain ⟨o, ho, hr⟩ := Answer.result_bind_eq_ok.1 hr
      exact ⟨rfl, s, t, _, _, o, rfl, rfl, hp, hq, ho,
        (Option.some.inj (Answer.result_pure_eq_ok.1 hr)).symm⟩
    · cases hr
  · cases hr

theorem threeWayRule_settles {mode : Mode} (hk : h.Keyed) (hj : EqSound h judge)
    (ho : OrderSound h h.Orderable judge) (ha : h.Orderable a) (hb : h.Orderable b)
    (hr : (threeWayRule h mode levels judge a b op).result = .ok (some r)) :
    h.Settles op r a b := by
  obtain ⟨-, s, t, x, y, o, rfl, rfl, hp, hq, hdicts, rfl⟩ := threeWayRule_some hr
  have hentry {s : Slot} {x : List Entry} (hv : h.Orderable (.ref s))
      (hp : h.find? s = some (.dict x)) (e : Entry) (he : e ∈ x) :
      h.Orderable e.key.value ∧ h.Orderable e.value :=
    ⟨hv.part hp (List.mem_flatMap.2 ⟨e, he, by simp [Entry.parts]⟩),
      hv.part hp (List.mem_flatMap.2 ⟨e, he, by simp [Entry.parts]⟩)⟩
  exact dicts_settle hp hq
    (dictOrder_settles hj ho (hentry ha hp) (hentry hb hq) (hk _ _ hp) (hk _ _ hq)
      hdicts)

/-- The order of dicts leaves nothing open in total mode. -/
theorem threeWayRule_ne_none {s t : Slot} {x y : List Entry} (hp : h.find? s = some (.dict x))
    (hq : h.find? t = some (.dict y)) :
    (threeWayRule h .total levels judge (.ref s) (.ref t) op).result ≠ .ok none := by
  intro hr
  rw [threeWayRule] at hr
  obtain ⟨p, hp', hr⟩ := Answer.result_bind_eq_ok.1 hr
  obtain ⟨q, hq', hr⟩ := Answer.result_bind_eq_ok.1 hr
  rw [Answer.result_look_eq_ok, Heap.read_eq_ok_iff] at hp' hq'
  rw [hp] at hp'
  rw [hq] at hq'
  cases hp'
  cases hq'
  obtain ⟨o, -, hr⟩ := Answer.result_bind_eq_ok.1 hr
  cases hr

/-! ## The fallback -/

theorem nat_compare_cast (m n : Nat) : compare (m : Int) n = compare m n := by
  simp only [compare, compareOfLessAndEq, Int.ofNat_lt, Int.ofNat_inj]

theorem compare_digits_append {s t : TypeRef} (hne : s ≠ t) (xs ys : List Int) :
    compare (s.digits ++ xs) (t.digits ++ ys) = s.order t ∧ s.order t ≠ .eq := by
  have hthen {m n : Nat} (hmn : m ≠ n) (o : Ordering) :
      (compare m n).then o = compare m n ∧ compare m n ≠ .eq := by
    cases hc : compare m n with
    | eq => exact absurd (LawfulEqCmp.eq_of_compare hc) hmn
    | lt => exact ⟨rfl, by decide⟩
    | gt => exact ⟨rfl, by decide⟩
  cases s with
  | builtin s =>
    cases t with
    | builtin t =>
      have hrank : s.rank ≠ t.rank := fun heq => hne (by rw [BuiltinType.rank_inj heq])
      simp only [TypeRef.digits, TypeRef.order, List.cons_append, List.nil_append,
        List.compare_cons_cons, compare_self, Ordering.eq_then, nat_compare_cast]
      exact hthen hrank _
    | userClass n => exact ⟨rfl, by simp [TypeRef.order]⟩
  | userClass m =>
    cases t with
    | builtin t => exact ⟨rfl, by simp [TypeRef.order]⟩
    | userClass n =>
      have hslot : m ≠ n := fun heq => hne (by rw [heq])
      simp only [TypeRef.digits, TypeRef.order, List.cons_append, List.nil_append,
        List.compare_cons_cons, compare_self, Ordering.eq_then, nat_compare_cast]
      exact hthen hslot _

/-- Labels of different types on one shelf are ordered by the names of the types, and then by the
types. -/
theorem order_of_types {s t : TypeRef} (hne : s ≠ t) (shelf : Nat) (name name' : String)
    (xs ys : List Int) (text text' : String) :
    (⟨shelf, name, s.digits ++ xs, text⟩ : Form.Label).order ⟨shelf, name', t.digits ++ ys, text'⟩ =
      (compare name name').then (s.order t) := by
  obtain ⟨hdigits, hno⟩ := compare_digits_append hne xs ys
  simp only [Form.Label.order_def, compare_self, Ordering.eq_then, hdigits]
  cases ho : s.order t with
  | eq => exact absurd ho hno
  | lt => rfl
  | gt => rfl

/-- The types of values that are neither `None` nor numbers are ordered by their names, and then by
the types. -/
theorem typeOrder_of_names {first second : TypeRef} {rule : FallbackRule} {o : Ordering}
    {name name' : String} (hfirst : first ≠ .builtin .noneType)
    (hsecond : second ≠ .builtin .noneType) (hn : first.isNumeric = false)
    (hn' : second.isNumeric = false)
    (hname : ∀ found, h.nameOfType first = .ok found → found = name)
    (hname' : ∀ found, h.nameOfType second = .ok found → found = name')
    (ho : typeOrder h first second = .ok (rule, o)) :
    o = (compare name name').then (first.order second) := by
  rw [typeOrder, if_neg hfirst, if_neg hsecond, hn, hn'] at ho
  obtain ⟨left, hleft, ho⟩ := bind_eq_ok.1 ho
  obtain ⟨right, hright, ho⟩ := bind_eq_ok.1 ho
  rw [hname left hleft, hname' right hright] at ho
  cases hc : compare name name' with
  | eq =>
    rw [hc] at ho
    cases ho
    rfl
  | lt =>
    rw [hc] at ho
    cases ho
    rfl
  | gt =>
    rw [hc] at ho
    cases ho
    rfl

/-- Values of different types are ordered by the fallback as their labels are, unless both are
numbers. -/
theorem typeOrder_eq_order {first second : TypeRef} {rule : FallbackRule} {o : Ordering}
    (hne : first ≠ second) (hfirst : h.typeOf a = .ok first) (hsecond : h.typeOf b = .ok second)
    (hnum : ¬(first.isNumeric = true ∧ second.isNumeric = true))
    (ho : typeOrder h first second = .ok (rule, o)) : o = (h.label a).order (h.label b) := by
  rcases h.label_cases (names_of_typeOf hfirst) with ⟨rfl, hla⟩ | ⟨_, ty, -, hty, htn, hla⟩ |
    ⟨ty, name, xs, text, hty, htn, htne, -, hname, hla⟩
  · -- `None` on the left
    cases hfirst
    rcases h.label_cases (names_of_typeOf hsecond) with ⟨rfl, -⟩ | ⟨_, _, _, _, _, hlb⟩ |
      ⟨_, _, _, _, _, _, _, _, _, hlb⟩
    · cases hsecond
      exact absurd rfl hne
    all_goals
      cases ho
      rw [hla, hlb]
      rfl
  · -- a number on the left
    cases hty.symm.trans hfirst
    have hnone : first ≠ .builtin .noneType := by
      rintro rfl
      cases htn
    rcases h.label_cases (names_of_typeOf hsecond) with ⟨rfl, hlb⟩ | ⟨_, ty', -, hty', htn', -⟩ |
      ⟨ty', _, _, _, hty', htn', htne', -, -, hlb⟩
    · cases hsecond
      rw [typeOrder, if_neg hne, if_pos rfl] at ho
      cases ho
      rw [hla, hlb]
      rfl
    · cases hty'.symm.trans hsecond
      exact absurd ⟨htn, htn'⟩ hnum
    · cases hty'.symm.trans hsecond
      rw [typeOrder, if_neg hnone, if_neg htne', htn, htn'] at ho
      cases ho
      rw [hla, hlb]
      rfl
  · -- anything else on the left
    cases hty.symm.trans hfirst
    rcases h.label_cases (names_of_typeOf hsecond) with ⟨rfl, hlb⟩ | ⟨_, ty', -, hty', htn', hlb⟩ |
      ⟨ty', name', ys, text', hty', htn', htne', -, hname', hlb⟩
    · cases hsecond
      rw [typeOrder, if_neg hne, if_pos rfl] at ho
      cases ho
      rw [hla, hlb]
      rfl
    · cases hty'.symm.trans hsecond
      have hnone : second ≠ .builtin .noneType := by
        rintro rfl
        cases htn'
      rw [typeOrder, if_neg htne, if_neg hnone, htn, htn'] at ho
      cases ho
      rw [hla, hlb]
      rfl
    · cases hty'.symm.trans hsecond
      rw [hla, hlb, order_of_types hne]
      exact typeOrder_of_names htne htne' htn htn' hname hname' ho

theorem typed_order (ty : BuiltinType) (xs ys : List Int) :
    (Form.Label.typed ty xs "").order (.typed ty ys "") = compare xs ys := by
  cases ty <;> simp [Form.Label.order_def, Form.Label.typed, TypeRef.digits,
    List.compare_cons_cons]

theorem compare_type_digits (s t : TypeRef) : compare s.digits t.digits = s.order t := by
  cases s <;> cases t <;>
    simp [TypeRef.digits, TypeRef.order, List.compare_cons_cons, nat_compare_cast] <;> rfl

theorem rank_toNat (ty : BuiltinType) : (UInt64.ofNat ty.rank).toNat = ty.rank := by
  cases ty <;> rfl

theorem find?_of_typeOf {s : Slot} {ty : TypeRef} (hty : h.typeOf (.ref s) = .ok ty) :
    ∃ p, h.find? s = some p ∧ p.typeRef = ty := by
  obtain ⟨p, hp⟩ := Option.isSome_iff_exists.1 (names_of_typeOf hty s rfl)
  rw [Heap.typeOf_ref hp] at hty
  exact ⟨p, hp, Except.ok.inj hty⟩

/-- Values of one type that no rule orders are ordered by the fallback as their labels are. -/
theorem identityOrder_eq_order {ty : TypeRef} (hab : a ≠ b) (hfirst : h.typeOf a = .ok ty)
    (hsecond : h.typeOf b = .ok ty) (hnum : ty.isNumeric = false)
    (hkind : ∀ s t p q, a = .ref s → b = .ref t → h.find? s = some p → h.find? t = some q →
      ¬p.SameKind q) :
    a.identity.order b.identity = (h.label a).order (h.label b) := by
  cases a with
  | bool => cases hfirst; cases hnum
  | int => cases hfirst; cases hnum
  | float => cases hfirst; cases hnum
  | none =>
    cases hfirst
    cases b with
    | none => exact absurd rfl hab
    | ref t =>
      obtain ⟨q, -, hq⟩ := find?_of_typeOf hsecond
      cases q <;> cases hq
    | _ => cases hsecond
  | ellipsis =>
    cases hfirst
    cases b with
    | ellipsis => exact absurd rfl hab
    | ref t =>
      obtain ⟨q, -, hq⟩ := find?_of_typeOf hsecond
      cases q <;> cases hq
    | _ => cases hsecond
  | builtin x =>
    cases hfirst
    cases b with
    | builtin y =>
      rw [Heap.label, Heap.label, typed_order, compare_type_digits]
      simp only [Value.identity, Identity.order, TypeRef.order, rank_toNat]
      rfl
    | ref t =>
      obtain ⟨q, hq, hty⟩ := find?_of_typeOf hsecond
      cases q <;> cases hty
      rw [Heap.label_ref hq, Heap.label, Heap.labelOf, typed_order, compare_type_digits]
      rfl
    | _ => cases hsecond
  | ref s =>
    obtain ⟨p, hp, hty⟩ := find?_of_typeOf hfirst
    cases b with
    | ref t =>
      obtain ⟨q, hq, hty'⟩ := find?_of_typeOf hsecond
      have hpnum : p.typeRef.isNumeric = false := by rw [hty, hnum]
      obtain ⟨hpn, hqn⟩ := (Payload.sameKind_of_typeRef (hty.trans hty'.symm) hpnum).resolve_left
        (hkind s t p q rfl rfl hp hq)
      rw [Heap.label_ref hp, Heap.label_ref hq]
      cases p <;> cases hpn <;> cases q <;> cases hqn <;> rw [← hty] at hty' <;> cases hty'
      · rw [Heap.labelOf, Heap.labelOf, typed_order, compare_type_digits]
        rfl
      · simp [Heap.labelOf, Form.Label.order_def, Form.Label.instance_, TypeRef.digits,
          List.compare_cons_cons, nat_compare_cast, Value.identity, Identity.order]
    | builtin y =>
      cases hsecond
      cases p <;> cases hty
      rw [Heap.label_ref hp, Heap.label, Heap.labelOf, typed_order, compare_type_digits]
      rfl
    | none => cases hsecond; cases p <;> cases hty
    | ellipsis => cases hsecond; cases p <;> cases hty
    | _ => cases hsecond; cases hnum

/-- Values of a numeric type are numbers. -/
theorem numberOf_of_isNumeric {ty : TypeRef} (hty : h.typeOf a = .ok ty)
    (hnum : ty.isNumeric = true) : ∃ m, numberOf h a = .ok (some m) := by
  rcases h.label_cases (names_of_typeOf hty) with ⟨rfl, -⟩ | ⟨m, _, hm, -, -, -⟩ |
    ⟨ty', _, _, _, hty', hnot, -, -, -, -⟩
  · cases hty
    cases hnum
  · exact ⟨m, hm⟩
  · cases hty'.symm.trans hty
    rw [hnum] at hnot
    cases hnot

/-- **The fallback orders values as their forms are ordered**, when it is asked at all. -/
theorem fallback_settles {first second : TypeRef} (hfirst : h.typeOf a = .ok first)
    (hsecond : h.typeOf b = .ok second)
    (hnone : (typeRule h levels judge a b op).result = .ok none)
    (hthree : first = second → (threeWayRule h .total levels judge a b op).result = .ok none)
    (hr : (fallback h .total levels a b op).result = .ok r) : h.Settles op r a b := by
  rw [fallback] at hr
  obtain ⟨⟨rule, o⟩, ho, hr⟩ := Answer.result_bind_eq_ok.1 hr
  obtain ⟨-, -, hr⟩ := Answer.result_bind_eq_ok.1 hr
  rw [Answer.result_look_eq_ok, fallbackOrder] at ho
  rw [Answer.result_pure_eq_ok] at hr
  subst hr
  by_cases hab : a = b
  · subst hab
    rw [if_pos (Value.isIdentical_refl a)] at ho
    cases ho
    exact Heap.Settles.refl h a op
  · rw [if_neg (by simp [Value.isIdentical_eq_false hab]), hfirst, hsecond] at ho
    -- two numbers have a rule
    have hnum : ¬(first.isNumeric = true ∧ second.isNumeric = true) := by
      rintro ⟨hl, hr⟩
      obtain ⟨m, hm⟩ := numberOf_of_isNumeric hfirst hl
      obtain ⟨n, hn⟩ := numberOf_of_isNumeric hsecond hr
      exact typeRule_ne_none_of_numbers hm hn hnone
    have hstep : o = (h.label a).order (h.label b) ∧ o ≠ .eq := by
      change (if first = second then _ else _) = _ at ho
      split at ho
      · next heq =>
        subst heq
        cases ho
        refine ⟨identityOrder_eq_order hab hfirst hsecond (by simpa using hnum) ?_,
          fun heq => hab (Value.identity_injective (identity_order_eq heq))⟩
        rintro s t p q rfl rfl hp hq hk
        rw [typeRule_contents hp hq hk] at hnone
        by_cases hdict : p.typeRef = .builtin .dict
        · cases hk <;> cases hdict
          exact threeWayRule_ne_none hp hq (hthree rfl)
        · exact payloadRule_ne_none hk (Or.inr hdict) hnone
      · next hne => exact ⟨typeOrder_eq_order hne hfirst hsecond hnum ho, typeOrder_ne_eq hne ho⟩
    refine Heap.settles_of_label_ne (fun heq => hstep.2 ?_) (by rw [hstep.1])
    rw [hstep.1]
    exact Form.Label.order_eq_iff.2 heq

/-! ## One level, and all of them -/

theorem dispatch_settles (hk : h.Keyed) (hj : EqSound h judge)
    (ho : OrderSound h h.Orderable judge) (ha : h.Orderable a) (hb : h.Orderable b)
    (hr : (dispatch h .total levels judge a b op).result = .ok r) : h.Settles op r a b := by
  obtain ⟨first, second, hfirst, hsecond, hr⟩ := dispatch_cases hr
  rcases hr with hr | ⟨-, hr⟩ | ⟨-, -, hr⟩ | ⟨hnone, hthree, -, hr⟩
  · exact typeRule_settles hk hj ho ha hb hr
  · exact (typeRule_settles hk hj ho hb ha hr).swap
  · exact threeWayRule_settles hk hj ho ha hb hr
  · exact fallback_settles hfirst hsecond hnone hthree hr

/-- **Total mode says how forms compare**, under every operator and with any number of levels. -/
theorem within_orderSound (hk : h.Keyed) (n : Nat) :
    OrderSound h h.Orderable (within h .total n) := by
  induction n with
  | zero =>
    intro a b op r ha hb hr
    rw [within] at hr
    rcases unlessInts_cases hr with ⟨m, n, rfl, rfl, rfl⟩ | hr
    · exact numbers_settle ha hb rfl rfl
    · exact absurd hr Answer.result_refuse_ne_ok
  | succ n ih =>
    intro a b op r ha hb hr
    rw [within] at hr
    rcases unlessInts_cases hr with ⟨m, n, rfl, rfl, rfl⟩ | hr
    · exact numbers_settle ha hb rfl rfl
    · exact dispatch_settles hk (within_eqSound hk .total n) ih ha hb hr

end Compare

end ValueHeap
