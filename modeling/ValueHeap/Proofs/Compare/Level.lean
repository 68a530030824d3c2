import ValueHeap.Proofs.Compare.Lockstep
import ValueHeap.Proofs.Compare.Mirror
import ValueHeap.Proofs.Faultless.Compare

/-!
# What one level of equality comes to

Under `==` the rules of one level settle the question in one of three ways.  Two numbers are equal
as numbers, contents of the same kind are compared by the rule of their kind, and everything else is
equal to itself only.  For values of builtin types nothing can go wrong on the way.

## What is here

* `Compare.dispatch_eq_numbers`, `Compare.dispatch_eq_contents` and `Compare.dispatch_eq_unruled` —
  the three ways.
-/

set_option autoImplicit false

namespace ValueHeap

namespace Compare

variable {h : Heap} {judge : Judge} {levels : Nat} {mode : Mode} {a b : Value}
  {first second : BuiltinType}

/-- What holds of the result in whatever order the rules are asked holds of the result of one level,
for two values of builtin types. -/
theorem result_dispatch {op : Operator} {P : Except Halt Bool → Prop}
    (ha : h.typeOf a = .ok (.builtin first)) (hb : h.typeOf b = .ok (.builtin second))
    (hsame : first = second → P (Answer.decideOr (typeRule h levels judge a b op) <|
      Answer.decideOr (threeWayRule h mode levels judge a b op) <|
        fallback h mode levels a b op).result)
    (hleft : P (Answer.decideOr (typeRule h levels judge a b op) <|
      Answer.decideOr (typeRule h levels judge b a op.swapped) <|
        fallback h mode levels a b op).result)
    (hright : P (Answer.decideOr (typeRule h levels judge b a op.swapped) <|
      Answer.decideOr (typeRule h levels judge a b op) <|
        fallback h mode levels a b op).result) :
    P (dispatch h mode levels judge a b op).result := by
  rw [dispatch, Answer.result_look_bind ha, Answer.result_look_bind hb]
  split
  · next heq => exact hsame (TypeRef.builtin.inj heq)
  · rw [Answer.result_look_bind (x := h.isSubtype _ _) rfl]
    split
    · exact hright
    · exact hleft

/-- Two numbers are equal as numbers. -/
theorem dispatch_eq_numbers {m n : Number} (hm : numberOf h a = .ok (some m))
    (hn : numberOf h b = .ok (some n)) :
    (dispatch h mode levels judge a b .eq).result = .ok (m.equal n) := by
  rw [dispatch_numbers hm hn, if_neg (by simp [Operator.isEquality]), Number.holds_eq]
  rfl

/-- Contents of the same kind are compared by the rule of their kind. -/
theorem dispatch_eq_contents {s t : Slot} {p q : Payload} {op : Operator} {x : Answer Bool}
    (hp : h.find? s = some p) (hq : h.find? t = some q) (hpq : p.SameKind q)
    (hrule : payloadRule judge op p q = some <$> x) :
    (dispatch h mode levels judge (.ref s) (.ref t) op).result = x.result := by
  have hdecided : (typeRule h levels judge (.ref s) (.ref t) op).result = (some <$> x).result := by
    rw [typeRule_contents hp hq hpq, hrule]
  have htype : ∃ ty, p.typeRef = .builtin ty ∧ q.typeRef = .builtin ty := by
    cases hpq <;> exact ⟨_, rfl, rfl⟩
  obtain ⟨ty, hpty, hqty⟩ := htype
  have hfirst := (Heap.typeOf_ref hp).trans (congrArg Except.ok hpty)
  have hsecond := (Heap.typeOf_ref hq).trans (congrArg Except.ok hqty)
  rw [dispatch, Answer.result_look_bind hfirst, Answer.result_look_bind hsecond, if_pos rfl]
  exact Answer.result_decideOr_of_map hdecided

/-! ## Values without a rule of their own -/

/-- Where no rule knows two values in use, the rule of the left one asks whether they are identical
or leaves the question open. -/
theorem Unruled.exists_typeRule (hab : Unruled h a b) (ha : h.Names a) (hb : h.Names b)
    (op : Operator) : ∃ o, (Compare.typeRule h levels judge a b op).result = .ok o := by
  obtain ⟨m, hm⟩ := exists_numberOf ha
  obtain ⟨n, hn⟩ := exists_numberOf hb
  unfold Compare.typeRule
  rw [Answer.result_look_bind hm]
  cases m with
  | some m =>
    cases n with
    | some n => exact absurd hn (hab.numbers m n hm)
    | none =>
      simp only
      rw [Answer.result_look_bind hn]
      exact ⟨none, rfl⟩
  | none =>
    cases a with
    | ref s =>
      obtain ⟨p, hread, hp⟩ := Heap.exists_read ha
      simp only
      rw [Answer.result_look_bind hread]
      cases b with
      | ref t =>
        obtain ⟨q, hread', hq⟩ := Heap.exists_read hb
        have hrule : payloadRule judge op p q = pure none :=
          payloadRule_of_not_sameKind (hab.contents s t p q rfl rfl hp hq)
        simp only [referenceRule, hread', Answer.look]
        cases p <;> first | exact ⟨_, rfl⟩ | exact ⟨none, congrArg Answer.result hrule⟩
      | _ => cases p <;> exact ⟨_, rfl⟩
    | _ => exact ⟨_, rfl⟩

theorem Unruled.threeWayRule_eq (hab : Unruled h a b) (ha : h.Names a) (hb : h.Names b)
    (op : Operator) : (Compare.threeWayRule h mode levels judge a b op).result = .ok none := by
  unfold Compare.threeWayRule
  split
  · obtain ⟨p, hread, hp⟩ := Heap.exists_read ha
    obtain ⟨q, hread', hq⟩ := Heap.exists_read hb
    rw [Answer.result_look_bind hread, Answer.result_look_bind hread']
    split
    · exact absurd (.dict _ _) (hab.contents _ _ _ _ rfl rfl hp hq)
    · rfl
  · rfl

/-- The fallback knows whether two values of builtin types are equal. -/
theorem exists_fallback_eq (ha : h.typeOf a = .ok (.builtin first))
    (hb : h.typeOf b = .ok (.builtin second)) :
    ∃ r, (fallback h mode levels a b .eq).result = .ok r := by
  cases mode with
  | strict => exact ⟨_, rfl⟩
  | total =>
    have horder : ∃ o, fallbackOrder h a b = .ok o := by
      rw [fallbackOrder]
      split
      · exact ⟨_, rfl⟩
      · obtain ⟨o, ho⟩ : ∃ o, typeOrder h (.builtin first) (.builtin second) = .ok o :=
          exists_typeOrder (fun _ heq => by cases heq) (fun _ heq => by cases heq)
        rw [ha, hb]
        by_cases heq : TypeRef.builtin first = .builtin second
        · exact ⟨_, if_pos heq⟩
        · exact ⟨o, (if_neg heq).trans ho⟩
    obtain ⟨o, ho⟩ := horder
    rw [fallback, Answer.result_look_bind ho]
    exact ⟨_, rfl⟩

/-- What no rule compares is equal to itself only. -/
theorem dispatch_eq_unruled (hab : Unruled h a b) (ha : h.typeOf a = .ok (.builtin first))
    (hb : h.typeOf b = .ok (.builtin second)) :
    (dispatch h mode levels judge a b .eq).result = .ok (a.isIdentical b) := by
  have hna := names_of_typeOf ha
  have hnb := names_of_typeOf hb
  have hrule : ∃ o, (typeRule h levels judge a b .eq).result = .ok o :=
    hab.exists_typeRule hna hnb .eq
  have hother : ∃ o, (typeRule h levels judge b a .eq).result = .ok o :=
    hab.symm.exists_typeRule hnb hna .eq
  have hthree : ∃ o, (threeWayRule h mode levels judge a b .eq).result = .ok o :=
    ⟨none, hab.threeWayRule_eq hna hnb .eq⟩
  have hlast : ∃ r, (fallback h mode levels a b .eq).result = .ok r := exists_fallback_eq ha hb
  have hanswer : ∃ r, (dispatch h mode levels judge a b .eq).result = .ok r := by
    refine result_dispatch (P := fun x => ∃ r, x = .ok r) ha hb (fun _ => ?_) ?_ ?_
    · exact Answer.exists_decideOr hrule (Answer.exists_decideOr hthree hlast)
    · exact Answer.exists_decideOr hrule (Answer.exists_decideOr hother hlast)
    · exact Answer.exists_decideOr hother (Answer.exists_decideOr hrule hlast)
  obtain ⟨r, hr⟩ := hanswer
  rw [hr, Except.ok.injEq, Bool.eq_iff_iff, Value.isIdentical_iff]
  rcases hab.orderly .eq r hr with ⟨-, equal, hequal, rfl⟩ | ⟨o, ho, rfl⟩
  · rw [← hequal]
    cases equal <;> decide
  · cases hx : fallbackOrder h a b with
    | error => simp [hx, Except.map] at ho
    | ok x =>
      rw [hx] at ho
      cases ho
      rw [← fallbackOrder_eq_iff hx]
      cases x.2 <;> decide

end Compare

end ValueHeap
