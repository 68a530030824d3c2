import ValueHeap.Proofs.Faultless.Compare
import ValueHeap.Proofs.Heap.Nesting

/-!
# Why a comparison stops

A comparison can be refused for three reasons: no level is left for it, strict mode has no order for
two values, or one of two numbers is complex.  Only the first one ever comes up under `==` and `!=`.
Whatever is compared on the way are parts of the two operands, keys of dicts among them, and at
least one operand is a level deeper than the part; so a comparison that runs out of levels has an
operand with as many of them.

## What is here

* `Heap.HoldsComplex` — a complex number occurs in a value.
* `Compare.Blame` — what an error says of the operands, the operator and the mode.
* `Compare.Blame.lift` — an error of a comparison of parts is one of the whole.
* `Compare.within_blames` — every error of a comparison has such a reason.
* `Compare.within_eq_of_alike` — values of the same form are found equal, or there are too few
  levels to find out.
-/

set_option autoImplicit false

namespace ValueHeap

/-- No level is left for a comparison. -/
def Halt.tooDeep : Halt := .error (.raised .comparisonTooDeep)

namespace Heap

variable {h : Heap} {v x : Value} {s : Slot} {p : Payload}

/-- A complex number occurs in a value. -/
def HoldsComplex (h : Heap) (v : Value) : Prop :=
  ∃ s re im, h.Occurs (.ref s) v ∧ h.find? s = some (.complex re im)

theorem HoldsComplex.of_part (hp : h.find? s = some p) (hx : x ∈ p.parts)
    (hc : h.HoldsComplex x) : h.HoldsComplex (.ref s) := by
  obtain ⟨t, re, im, hocc, ht⟩ := hc
  exact ⟨t, re, im, .part hp hx hocc, ht⟩

/-- A number that is complex occurs in itself. -/
theorem holdsComplex_of_number {m : Number} (hm : Compare.numberOf h v = .ok (some m))
    (hc : m.isComplex = true) : h.HoldsComplex v := by
  cases v with
  | ref s =>
    rw [Compare.numberOf] at hm
    cases hread : h.read s with
    | error f => simp [hread, Except.map] at hm
    | ok p =>
      cases p <;> simp [hread, Except.map] at hm <;> subst hm
      · cases hc
      · exact ⟨s, _, _, .self, Heap.read_eq_ok_iff.1 hread⟩
  | none => cases hm
  | ellipsis => cases hm
  | builtin ty => cases hm
  | _ => cases hm; cases hc

end Heap

namespace Compare

open Answer

variable {h : Heap} {mode : Mode} {n : Nat} {a b x y : Value} {op op' : Operator} {e : RunError}

/-! ## Reasons -/

/-- The reason for which a comparison with so many levels is refused. -/
inductive Blame (h : Heap) (mode : Mode) (levels : Nat) (a b : Value) (op : Operator) :
    RunError → Prop
  | tooDeep (hn : levels ≤ h.nesting a ∨ levels ≤ h.nesting b) :
      Blame h mode levels a b op (.raised .comparisonTooDeep)
  | unordered (hop : op.isEquality = false) (hmode : mode = .strict) (asked : Operator)
      (left right : String) : Blame h mode levels a b op (.raised (.unordered asked left right))
  | complexOrdering (hop : op.isEquality = false) (hc : h.HoldsComplex a ∨ h.HoldsComplex b) :
      Blame h mode levels a b op (.raised .complexOrdering)

/-- A part of either operand. -/
def IsPart (h : Heap) (a b x : Value) : Prop :=
  ∃ s p, (a = .ref s ∨ b = .ref s) ∧ h.find? s = some p ∧ x ∈ p.parts

theorem IsPart.nesting (hx : IsPart h a b x) (hn : (n : ℕ∞) ≤ h.nesting x) :
    ((n + 1 : ℕ) : ℕ∞) ≤ h.nesting a ∨ ((n + 1 : ℕ) : ℕ∞) ≤ h.nesting b := by
  obtain ⟨s, p, hs, hp, hmem⟩ := hx
  have hle : ((n + 1 : ℕ) : ℕ∞) ≤ h.nesting (.ref s) :=
    (add_le_add_left hn 1).trans (Heap.nesting_part hp hmem)
  rcases hs with rfl | rfl
  · exact Or.inl hle
  · exact Or.inr hle

theorem IsPart.holdsComplex (hx : IsPart h a b x) (hc : h.HoldsComplex x) :
    h.HoldsComplex a ∨ h.HoldsComplex b := by
  obtain ⟨s, p, hs, hp, hmem⟩ := hx
  rcases hs with rfl | rfl
  · exact Or.inl (hc.of_part hp hmem)
  · exact Or.inr (hc.of_part hp hmem)

/-- **The reason for an error of a comparison of parts is one of the whole**, which has one level
more. -/
theorem Blame.lift (hblame : Blame h mode n x y op' e) (hx : IsPart h a b x)
    (hy : IsPart h a b y) (hop : op'.isEquality = false → op.isEquality = false) :
    Blame h mode (n + 1) a b op e := by
  cases hblame with
  | tooDeep hn => exact .tooDeep (hn.elim hx.nesting hy.nesting)
  | unordered hop' hmode asked left right => exact .unordered (hop hop') hmode asked left right
  | complexOrdering hop' hc =>
    exact .complexOrdering (hop hop') (hc.elim hx.holdsComplex hy.holdsComplex)

/-! ## Levels -/

/-- Every error has a reason.  Nothing is said of faults. -/
def Blames (h : Heap) (mode : Mode) (levels : Nat) (a b : Value) (op : Operator) (halt : Halt) :
    Prop :=
  ∀ e, halt = .error e → Blame h mode levels a b op e

/-- The fallback refuses to order values in strict mode. -/
theorem fallback_blames : (fallback h mode n a b op).Stops (Blames h mode (n + 1) a b op) := by
  have hlook {α : Type} (u : Except Fault α) :
      (Answer.look n u).Stops (Blames h mode (n + 1) a b op) := .look (fun _ => nofun) u
  cases mode with
  | total => exact (hlook _).bind fun _ _ => (Stops.report _).bind fun _ _ => .pure _
  | strict =>
    rw [fallback]
    split
    · exact (Stops.report _).bind fun _ _ => .pure _
    · next hop =>
      refine (hlook _).bind fun left _ => (hlook _).bind fun right _ => ?_
      rintro _ ⟨⟩ _ ⟨⟩
      exact .unordered (Bool.not_eq_true _ ▸ hop) rfl op left right

/-- One level stops for a reason if the comparisons of the parts do. -/
theorem dispatch_blames {judge : Judge}
    (hj : ∀ x y op', (judge x y op').Stops (Blames h mode n x y op')) :
    (dispatch h mode n judge a b op).Stops (Blames h mode (n + 1) a b op) := by
  have hpart {v : Value} (hv : ∀ s p x, v = .ref s → h.find? s = some p → x ∈ p.parts →
      IsPart h a b x) :
      Counterpart (.only (Blames h mode (n + 1) a b op)) (fun x x' => x = x' ∧ IsPart h a b x)
        h n h n v v :=
    .refl (fun _ => nofun) fun s p hs hp x hx => ⟨rfl, hv s p x hs hp hx⟩
  refine dispatch_stops (hpart fun s p x hs hp hx => ⟨s, p, Or.inl hs, hp, hx⟩)
    (hpart fun s p x hs hp hx => ⟨s, p, Or.inr hs, hp, hx⟩)
    (fun s t _ _ => .look (fun _ => nofun) _) ?_ fallback_blames ?_
  · rintro i j hi hj hc hop _ ⟨⟩
    exact .complexOrdering hop (hc.imp (Heap.holdsComplex_of_number hi)
      (Heap.holdsComplex_of_number hj))
  · exact fun x y op' hx hy hop halt hr e he => (hj x y op' halt hr e he).lift hx hy hop

/-- **Every error of a comparison has a reason.** -/
theorem within_blames (h : Heap) (mode : Mode) (n : Nat) (a b : Value) (op : Operator) :
    (within h mode n a b op).Stops (Blames h mode n a b op) := by
  induction n generalizing a b op with
  | zero =>
    refine unlessInts_stops ?_
    rintro _ ⟨⟩ _ ⟨⟩
    exact .tooDeep (Or.inl bot_le)
  | succ n ih => exact unlessInts_stops (dispatch_blames ih)

/-- **Rich equality reports no other error than that of too deep a nesting**, in either mode and
with any number of levels. -/
theorem within_onlyTooDeep (h : Heap) (mode : Mode) (n : Nat) (a b : Value) (e : RunError)
    (he : (within h mode n a b .eq).result = .error (.error e)) :
    e = .raised .comparisonTooDeep := by
  cases within_blames h mode n a b .eq _ he e rfl with
  | tooDeep => rfl
  | unordered hop => cases hop
  | complexOrdering hop => cases hop

/-! ## Values of the same form -/

/-- An answer that has this result, unless it stops for want of levels. -/
def Settled {α : Type} (x : Answer α) (a : α) : Prop :=
  x.result = .ok a ∨ x.result = .error .tooDeep

/-- No other error than that of too deep a nesting, and no fault. -/
theorem within_eq_error (hc : h.Coherent) (ha : h.Names a) (hb : h.Names b) {e : Halt}
    (he : (within h mode n a b .eq).result = .error e) : e = .tooDeep := by
  cases e with
  | error e => rw [within_onlyTooDeep h mode n a b e he]; rfl
  | fault f levels => exact absurd he (within_faultless hc mode n a b .eq ha hb f levels)

/-- Values of the same form are found equal, unless they are one value. -/
theorem within_eq_of_alike (hc : h.Coherent) (ha : h.Names a) (hb : h.Names b) (hne : a ≠ b)
    (hab : h.Alike a b) : Settled (within h mode n a b .eq) true := by
  cases hr : (within h mode n a b .eq).result with
  | error e => exact Or.inr (hr.trans (congrArg _ (within_eq_error hc ha hb hr)))
  | ok r =>
    have hsettles := within_eqSound hc.keyed mode n a b r hr hne
    cases r with
    | true => exact Or.inl hr
    | false => exact absurd hab (Heap.settles_eq_false.1 hsettles).not_alike

end Compare

end ValueHeap
