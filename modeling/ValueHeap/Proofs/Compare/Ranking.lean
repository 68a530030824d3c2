import ValueHeap.Proofs.Compare.Mirror
import ValueHeap.Proofs.Compare.TotalOrder
import ValueHeap.Proofs.Faultless.Compare

/-!
# Ranks

The fallback of total mode asks one thing after the other of two values: whether they are the same,
whether one is `None`, whether one is a number, how their types are spelled, which types they are,
and at last which values.  All the answers can be read off each of the two values alone, and written
into one label.  So the rules together order values as labels are ordered, however the spelling of a
class may clash with that of a builtin type.

## What is here

* `Compare.rankOf` and `Compare.Ranked` — the label that the fallback rules give a value.
* `Compare.exists_ranked` and `Compare.Ranked.unique` — every value in use has one, and only one.
* `Compare.Ranked.fallbackOrder` — **the fallback orders values as their ranks are ordered.**
* `Compare.Ranked.of_agree` — a rank depends on nothing that changes while the value is in use.
-/

set_option autoImplicit false

namespace ValueHeap

open Std

/-! ## Identities as numbers -/

/-- What tells an identity from the others. -/
def Identity.digits : Identity → List Int
  | immediate ty bits => [0, ty.rank, bits.toNat]
  | heap s => [1, s]

namespace Compare

theorem compare_identity_digits (x y : Identity) : compare x.digits y.digits = x.order y := by
  cases x <;> cases y <;>
    simp [Identity.digits, Identity.order, List.compare_cons_cons, nat_compare_cast] <;> rfl

theorem compare_append_left (ds xs ys : List Int) :
    compare (ds ++ xs) (ds ++ ys) = compare xs ys := by
  induction ds with
  | nil => rfl
  | cons d ds ih =>
    rw [List.cons_append, List.cons_append, List.compare_cons_cons, compare_self, Ordering.eq_then,
      ih]

/-! ## The rank of a value -/

variable {h k : Heap} {a b : Value} {x y : Form.Label}

/-- The rank of a value of a type, under the name that is compared before the type. -/
def rankUnder (shelf : Nat) (name : String) (ty : TypeRef) (v : Value) : Form.Label :=
  ⟨shelf, name, ty.digits ++ v.identity.digits, ""⟩

/-- What the fallback rules see of a value of a type of that name.  `None` comes before everything
else, and a number before whatever is no number; any other value has its place by the name of its
type. -/
def rankOf (name : String) (ty : TypeRef) (v : Value) : Form.Label :=
  if ty = .builtin .noneType then Form.Label.absent
  else if ty.isNumeric then rankUnder 1 "" ty v
  else rankUnder 2 name ty v

/-- The label that the fallback rules give a value. -/
inductive Ranked (h : Heap) (v : Value) : Form.Label → Prop
  | intro {ty : TypeRef} {name : String} (hty : h.typeOf v = .ok ty)
      (hname : h.nameOfType ty = .ok name) : Ranked h v (rankOf name ty v)

/-- Every value in use has a rank. -/
theorem exists_ranked (hc : h.Coherent) (ha : h.Names a) : ∃ x, Ranked h a x := by
  obtain ⟨ty, hty, hgood⟩ := Heap.exists_typeOf hc ha
  obtain ⟨name, hname⟩ := Heap.exists_nameOfType hgood
  exact ⟨_, .intro hty hname⟩

/-- A value has one rank. -/
theorem Ranked.unique (ha : Ranked h a x) (ha' : Ranked h a y) : x = y := by
  obtain ⟨hty, hname⟩ := ha
  obtain ⟨hty', hname'⟩ := ha'
  cases hty.symm.trans hty'
  cases hname.symm.trans hname'
  rfl

/-! ## Ranks in order -/

theorem eq_none_of_typeOf (ha : h.typeOf a = .ok (.builtin .noneType)) : a = .none := by
  cases a with
  | none => rfl
  | ref s =>
    obtain ⟨p, -, hp⟩ := find?_of_typeOf ha
    cases p <;> cases hp
  | _ => cases ha

theorem rankUnder_order_self (shelf : Nat) (name : String) (ty : TypeRef) (a b : Value) :
    (rankUnder shelf name ty a).order (rankUnder shelf name ty b) =
      a.identity.order b.identity := by
  simp only [rankUnder, Form.Label.order_def, compare_self, Ordering.eq_then, compare_append_left,
    compare_identity_digits]
  cases a.identity.order b.identity <;> rfl

/-- Different values of one type are ordered by their ranks as by their identities. -/
theorem Ranked.identityOrder {ty : TypeRef} (ha : Ranked h a x) (hb : Ranked h b y)
    (hfirst : h.typeOf a = .ok ty) (hsecond : h.typeOf b = .ok ty) (hab : a ≠ b) :
    a.identity.order b.identity = x.order y := by
  obtain ⟨hty, hname⟩ := ha
  obtain ⟨hty', hname'⟩ := hb
  cases hty.symm.trans hfirst
  cases hty'.symm.trans hsecond
  cases hname.symm.trans hname'
  have hnotNone : ty ≠ .builtin .noneType := by
    rintro rfl
    exact hab ((eq_none_of_typeOf hfirst).trans (eq_none_of_typeOf hsecond).symm)
  rw [rankOf, rankOf, if_neg hnotNone, if_neg hnotNone]
  cases ty.isNumeric <;> exact (rankUnder_order_self _ _ _ _ _).symm

/-- Two values of different types are ordered by these as they are ordered by their ranks. -/
theorem Ranked.typeOrder {first second : TypeRef} {rule : FallbackRule} {o : Ordering}
    (ha : Ranked h a x) (hb : Ranked h b y) (hfirst : h.typeOf a = .ok first)
    (hsecond : h.typeOf b = .ok second) (hne : first ≠ second)
    (ho : typeOrder h first second = .ok (rule, o)) : o = x.order y := by
  obtain ⟨hty, hname⟩ := ha
  obtain ⟨hty', hname'⟩ := hb
  cases hty.symm.trans hfirst
  cases hty'.symm.trans hsecond
  by_cases hnone : first = .builtin .noneType
  · rw [Compare.typeOrder, if_pos hnone] at ho
    cases ho
    rw [rankOf, rankOf, if_pos hnone, if_neg (hnone ▸ hne.symm)]
    cases second.isNumeric <;> rfl
  by_cases hnone' : second = .builtin .noneType
  · rw [Compare.typeOrder, if_neg hnone, if_pos hnone'] at ho
    cases ho
    rw [rankOf, rankOf, if_neg hnone, if_pos hnone']
    cases first.isNumeric <;> rfl
  have hkinds := ho
  rw [Compare.typeOrder, if_neg hnone, if_neg hnone'] at hkinds
  rw [rankOf, rankOf, if_neg hnone, if_neg hnone']
  cases hnum : first.isNumeric with
  | true =>
    cases hnum' : second.isNumeric with
    | true =>
      rw [hnum, hnum'] at hkinds
      cases hkinds
      rw [if_pos rfl, if_pos rfl, rankUnder, rankUnder, order_of_types hne, compare_self,
        Ordering.eq_then]
    | false =>
      rw [hnum, hnum'] at hkinds
      cases hkinds
      rfl
  | false =>
    cases hnum' : second.isNumeric with
    | true =>
      rw [hnum, hnum'] at hkinds
      cases hkinds
      rfl
    | false =>
      rw [if_neg Bool.false_ne_true, if_neg Bool.false_ne_true, rankUnder, rankUnder,
        order_of_types hne]
      exact typeOrder_of_names hnone hnone' hnum hnum'
        (fun _ hfound => Except.ok.inj (hfound.symm.trans hname))
        (fun _ hfound => Except.ok.inj (hfound.symm.trans hname')) ho

/-- **The fallback orders values as their ranks are ordered.** -/
theorem Ranked.fallbackOrder {rule : FallbackRule} {o : Ordering} (ha : Ranked h a x)
    (hb : Ranked h b y) (ho : fallbackOrder h a b = .ok (rule, o)) : o = x.order y := by
  rw [Compare.fallbackOrder] at ho
  by_cases hab : a = b
  · subst hab
    rw [if_pos (Value.isIdentical_refl a)] at ho
    cases ho
    rw [ha.unique hb, (Form.Label.order_eq_iff (a := y)).2 rfl]
  · rw [if_neg (by simp [Value.isIdentical_eq_false hab])] at ho
    obtain ⟨first, hfirst, ho⟩ := bind_eq_ok.1 ho
    obtain ⟨second, hsecond, ho⟩ := bind_eq_ok.1 ho
    split at ho
    · next heq =>
      subst heq
      cases ho
      exact ha.identityOrder hb hfirst hsecond hab
    · next hne => exact ha.typeOrder hb hfirst hsecond hne ho

/-! ## Ranks that stay -/

/-- What has been said of types holds in a heap that agrees, as long as the value is in use. -/
theorem typeOf_of_agree (hag : h.Agree k) (hk : k.Names a) {ty : TypeRef}
    (hty : h.typeOf a = .ok ty) : k.typeOf a = .ok ty := by
  cases a with
  | ref s =>
    obtain ⟨p, hp, rfl⟩ := find?_of_typeOf hty
    obtain ⟨q, hq⟩ := Option.isSome_iff_exists.1 (hk s rfl)
    rw [Heap.typeOf_ref hq]
    rcases hag s p q hp hq with rfl | ⟨hlist, hlist'⟩
    · rfl
    · cases p <;> cases hlist
      cases q <;> cases hlist'
      rfl
  | _ => exact hty

theorem nameOfType_of_agree (hag : h.Agree k) {ty : TypeRef} {name : String}
    (hgood : k.GoodType ty) (hname : h.nameOfType ty = .ok name) : k.nameOfType ty = .ok name := by
  cases ty with
  | builtin ty => exact hname
  | userClass s =>
    obtain ⟨found, base, hq⟩ := hgood s rfl
    rw [Heap.nameOfType] at hname ⊢
    cases hread : h.read s with
    | error f => simp [hread] at hname
    | ok p =>
      rw [hread] at hname
      rcases hag s p _ (Heap.read_eq_ok_iff.1 hread) hq with rfl | ⟨-, hlist⟩
      · rwa [Heap.read_eq_ok_iff.2 hq]
      · cases hlist

/-- **A rank stays what it is** as long as the value is in use. -/
theorem Ranked.of_agree (hag : h.Agree k) (hc : k.Coherent) (hk : k.Names a)
    (ha : Ranked h a x) : Ranked k a x := by
  obtain ⟨hty, hname⟩ := ha
  have hty' := typeOf_of_agree hag hk hty
  obtain ⟨ty, hfound, hgood⟩ := Heap.exists_typeOf hc hk
  cases hfound.symm.trans hty'
  exact .intro hty' (nameOfType_of_agree hag hgood hname)

end Compare

end ValueHeap
