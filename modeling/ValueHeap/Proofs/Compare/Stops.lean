import ValueHeap.Proofs.Compare.Equality
import ValueHeap.Proofs.Compare.Lockstep

/-!
# What one level of a comparison stops with

Rules have little to stop with themselves.  Slots are looked up, two numbers may have no order, the
fallback may refuse to order two values, and all the rest comes from the comparisons of the parts.
These are made under `==`, also where the question is another one.  Only where the operator is an
ordering may they be made under an ordering as well, since two dicts are not asked for their order
before the rule of their type has left the question open.

## What is here

* `Compare.threeWayRule_of_isEquality` — the order of dicts has no say under `==` and `!=`.
* `Compare.dispatch_stops` — one level stops with nothing but what its parts stop with.
-/

set_option autoImplicit false

namespace ValueHeap

namespace Compare

open Answer

variable {h : Heap} {judge : Judge} {n : Nat} {mode : Mode} {a b : Value} {op : Operator}

/-- Whether two dicts are equal is not left open by the rule of their type, so their order is not
asked for. -/
theorem threeWayRule_of_isEquality {ty : TypeRef} (mode : Mode) (hop : op.isEquality = true)
    (ha : h.typeOf a = .ok ty) (hb : h.typeOf b = .ok ty)
    (hnone : (typeRule h n judge a b op).result = .ok none) :
    (threeWayRule h mode n judge a b op).result = .ok none := by
  unfold threeWayRule
  split
  · obtain ⟨p, hp⟩ := Option.isSome_iff_exists.1 (names_of_typeOf ha _ rfl)
    obtain ⟨q, hq⟩ := Option.isSome_iff_exists.1 (names_of_typeOf hb _ rfl)
    rw [result_look_bind (Heap.read_eq_ok_iff.2 hp), result_look_bind (Heap.read_eq_ok_iff.2 hq)]
    split
    · rw [typeRule_contents hp hq (.dict _ _)] at hnone
      exact absurd hnone (payloadRule_ne_none (.dict _ _) (Or.inl hop))
    · rfl
  · rfl

/-! ## One level -/

/-- One level stops with nothing but what looking things up, two numbers, the fallback and the
comparisons of parts stop with.  The parts are known to be good, and are compared under an ordering
only if the two values are. -/
theorem dispatch_stops {P : Halt → Prop} {good : Value → Prop}
    (ha : Counterpart (.only P) (fun x x' => x = x' ∧ good x) h n h n a a)
    (hb : Counterpart (.only P) (fun x x' => x = x' ∧ good x) h n h n b b)
    (hsub : ∀ s t, h.typeOf a = .ok s → h.typeOf b = .ok t →
      (Answer.look n (h.isSubtype t s)).Stops P)
    (hnumbers : ∀ i j, numberOf h a = .ok (some i) → numberOf h b = .ok (some j) →
      i.isComplex = true ∨ j.isComplex = true → op.isEquality = false →
      P (.error (.raised .complexOrdering)))
    (hlast : (fallback h mode n a b op).Stops P)
    (hparts : ∀ x y op', good x → good y → (op'.isEquality = false → op.isEquality = false) →
      (judge x y op').Stops P) :
    (dispatch h mode n judge a b op).Stops P := by
  have hjudge {x x' y y' : Value} (op' : Operator) (hx : x = x' ∧ good x) (hy : y = y' ∧ good y)
      (hop : op'.isEquality = false → op.isEquality = false) :
      Matches (.only P) Eq (judge x y op') (judge x' y' op') := by
    obtain ⟨rfl, hx⟩ := hx
    obtain ⟨rfl, hy⟩ := hy
    exact stops_iff.1 (hparts x y op' hx hy hop)
  have hid {x x' y y' : Value} (hx : x = x' ∧ good x) (hy : y = y' ∧ good y) :
      x = y ↔ x' = y' := by
    rw [hx.1, hy.1]
  have hsame {x x' y y' : Value} (hx : x = x' ∧ good x) (hy : y = y' ∧ good y) :
      Matches (.only P) Eq (sameOrEqual judge x y) (sameOrEqual judge x' y') :=
    sameOrEqual_matches (hid hx hy) (hjudge .eq hx hy nofun)
  have hnumber (i j : Number) (op' : Operator) (hop : op'.isEquality = op.isEquality)
      (hP : i.isComplex = true ∨ j.isComplex = true → op.isEquality = false →
        P (.error (.raised .complexOrdering))) :
      Matches (.only P) Eq (numberRule i j op') (numberRule i j op') := by
    refine stops_iff.1 fun e he => ?_
    rw [numberRule] at he
    split at he
    · next hc =>
      rw [Bool.and_eq_true, Bool.or_eq_true, Bool.not_eq_true', hop] at hc
      cases he
      exact hP hc.1 hc.2
    · cases he
  refine stops_iff.2 (dispatch_matches ha.typeOf_matches hb.typeOf_matches
    (fun s t hs ht => stops_iff.1 (hsub s t hs ht)) ?_ ?_ ?_ fun _ _ _ _ _ _ _ => stops_iff.1 hlast)
  · exact typeRule_matches hsame (fun hop _ _ _ _ hx hy => hjudge op hx hy fun _ => hop)
      (fun i j hi hj => hnumber i j op rfl (hnumbers i j hi hj)) ha hb
  · have hswapped : op.swapped.isEquality = op.isEquality := by cases op <;> rfl
    exact typeRule_matches hsame
      (fun hop _ _ _ _ hx hy => hjudge op.swapped hx hy fun _ => hswapped ▸ hop)
      (fun i j hi hj => hnumber i j op.swapped hswapped fun hc => hnumbers j i hj hi hc.symm) hb ha
  · intro ty hta htb hnone _
    refine Matches.decideOr ?_ fun _ _ => stops_iff.1 hlast
    cases hop : op.isEquality with
    | true =>
      have hthree := threeWayRule_of_isEquality mode hop hta htb hnone
      exact .ok hthree hthree rfl fun _ => rfl
    | false =>
      exact threeWayRule_matches hsame (fun hx hy => hjudge .lt hx hy fun _ => hop)
        (fun hx hy => valueOrder_matches (hid hx hy) (hjudge .lt hx hy fun _ => hop)
          (hjudge .eq hx hy nofun)) ha hb

/-- Two machine integers stop with nothing. -/
theorem unlessInts_stops {P : Halt → Prop} (hjudge : (judge a b op).Stops P) :
    (unlessInts judge a b op).Stops P := by
  simp only [unlessInts]
  split
  · exact .pure _
  · exact hjudge

end Compare

end ValueHeap
