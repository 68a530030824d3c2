import ValueHeap.Compare.Rich
import ValueHeap.Proofs.Answer

/-!
# `!=` denies what `==` says

Every rule that knows `==` knows `!=` as well, and goes the same way for both: it compares the same
parts in the same order, under `==`, and only turns the outcome around at the end.  So the two fail
alike, and otherwise one denies what the other says.  Nothing is asked of the heap or of the judge
of the parts for this.

## What is here

* `Answer.Follows` — an answer that ends as another one does, but for its result being changed.
* `Compare.sequences_denies`, `Compare.payloadRule_denies`, `Compare.typeRule_denies` and their
  like — the rules, one at a time.
* `Compare.dispatch_denies` and `Compare.within_denies` — one level, and rich comparison.
-/

set_option autoImplicit false

namespace ValueHeap

namespace Answer

variable {α β γ : Type} {f : β → γ}

/-- One answer ends as another one does: with the same failure, or with the changed result. -/
def Follows (f : β → γ) (x : Answer β) (y : Answer γ) : Prop := y.result = x.result.map f

theorem Follows.pure {b : β} {c : γ} (hc : c = f b) :
    Follows f (Pure.pure b) (Pure.pure c) :=
  congrArg Except.ok hc

/-- Two answers that begin with the same one. -/
theorem Follows.bind {x : Answer α} {g : α → Answer β} {k : α → Answer γ}
    (hgk : ∀ a, Follows f (g a) (k a)) : Follows f (x >>= g) (x >>= k) := by
  rw [Follows, result_bind, result_bind]
  cases x.result with
  | error halt => rfl
  | ok a => exact hgk a

theorem Follows.map {x : Answer α} {g : α → β} {k : α → γ} (hgk : ∀ a, k a = f (g a)) :
    Follows f (g <$> x) (k <$> x) := by
  rw [map_eq_pure_bind, map_eq_pure_bind]
  exact .bind fun a => .pure (hgk a)

theorem Follows.ite {c : Prop} [Decidable c] {x x' : Answer β} {y y' : Answer γ}
    (hx : Follows f x y) (hx' : Follows f x' y') :
    Follows f (if c then x else x') (if c then y else y') := by
  split
  · exact hx
  · exact hx'

/-- A question is decided in the same place by both. -/
theorem Follows.decideOr {first : Answer (Option β)} {first' : Answer (Option γ)}
    {second : Answer β} {second' : Answer γ} (hfirst : Follows (Option.map f) first first')
    (hsecond : Follows f second second') :
    Follows f (Answer.decideOr first second) (Answer.decideOr first' second') := by
  rw [Follows, Answer.decideOr, Answer.decideOr, result_bind, result_bind, hfirst]
  cases first.result with
  | error halt => rfl
  | ok o =>
    cases o with
    | none => exact hsecond
    | some b => rfl

end Answer

namespace Compare

open Answer

variable {h : Heap} {judge : Judge} {levels : Nat} {mode : Mode} {a b : Value}

/-! ## Contents -/

/-- Items are compared under `==` until a pair of them differs, whichever of the two operators is
asked about. -/
theorem itemByItem_denies (xs ys : List Value) :
    Follows (!·) (itemByItem judge .eq xs ys) (itemByItem judge .ne xs ys) := by
  induction xs generalizing ys with
  | nil => cases ys <;> exact .pure (Operator.holds_ne _)
  | cons x xs ih =>
    cases ys with
    | nil => exact .pure (Operator.holds_ne _)
    | cons y ys => exact .bind fun same => .ite (ih ys) (.pure rfl)

theorem sequences_denies (xs ys : List Value) :
    Follows (!·) (sequences judge .eq xs ys) (sequences judge .ne xs ys) :=
  .ite (.pure rfl) (itemByItem_denies xs ys)

theorem sets_denies (x y : List HashedKey) :
    Follows (!·) (sets judge .eq x y) (sets judge .ne x y) := by
  simp only [sets]
  split
  · rw [← bind_pure (isSubset judge x y), bind_assoc]
    exact .bind fun equal => .pure rfl
  · exact .pure rfl

theorem payloadRule_denies (p q : Payload) :
    Follows (Option.map (!·)) (payloadRule judge .eq p q) (payloadRule judge .ne p q) := by
  have hsome {x y : Answer Bool} (hxy : Follows (!·) x y) :
      Follows (Option.map (!·)) (some <$> x) (some <$> y) := by
    rw [Follows, result_map, result_map, hxy]
    cases x.result <;> rfl
  simp only [payloadRule]
  split
  case h_1 => exact .pure (congrArg some (Operator.holds_ne _))
  case h_2 => exact .pure (congrArg some (Operator.holds_ne _))
  case h_3 => exact hsome (sequences_denies _ _)
  case h_4 => exact hsome (sequences_denies _ _)
  case h_5 => exact hsome (sequences_denies _ _)
  case h_6 => exact .map fun equal => by cases equal <;> rfl
  case h_7 => exact hsome (sets_denies _ _)
  case h_8 => exact .pure (congrArg some (Operator.holds_ne _))
  case h_9 => exact .pure rfl

/-! ## Rules -/

theorem identityRule_denies (a b : Value) :
    identityRule a b .ne = (identityRule a b .eq).map (!·) := by
  unfold identityRule
  cases a.isIdentical b <;> rfl

theorem numberRule_denies (m n : Number) :
    Follows (Option.map (!·)) (numberRule m n .eq) (numberRule m n .ne) := by
  have hholds : Number.holds .ne m n = !Number.holds .eq m n := by
    unfold Number.holds
    split
    · cases m.equal n <;> rfl
    · cases m.order? n with
      | none => rfl
      | some o => exact Operator.holds_ne o
  simp only [numberRule, show Operator.isEquality .eq = true from rfl,
    show Operator.isEquality .ne = true from rfl, Bool.not_true, Bool.and_false]
  exact .pure (congrArg some hholds)

theorem referenceRule_denies (p : Payload) (a b : Value) :
    Follows (Option.map (!·)) (referenceRule h levels judge .eq p a b)
      (referenceRule h levels judge .ne p a b) := by
  cases b with
  | ref t =>
    refine .bind fun other => ?_
    cases p <;> cases other <;>
      first
      | exact .pure (identityRule_denies a (.ref t))
      | exact payloadRule_denies _ _
      | exact .pure rfl
  | _ => cases p <;> first | exact .pure (identityRule_denies a _) | exact .pure rfl

theorem typeRule_denies (a b : Value) :
    Follows (Option.map (!·)) (typeRule h levels judge a b .eq)
      (typeRule h levels judge a b .ne) := by
  refine .bind fun left => ?_
  cases left with
  | some m =>
    refine .bind fun right => ?_
    cases right with
    | some n => exact numberRule_denies m n
    | none => exact .pure rfl
  | none =>
    cases a with
    | ref s => exact .bind fun contents => referenceRule_denies contents (.ref s) b
    | _ => exact .pure (identityRule_denies _ b)

theorem threeWayRule_denies (a b : Value) :
    Follows (Option.map (!·)) (threeWayRule h mode levels judge a b .eq)
      (threeWayRule h mode levels judge a b .ne) := by
  simp only [threeWayRule]
  split
  · refine .bind fun p => .bind fun q => ?_
    split
    · exact .bind fun order => .pure (congrArg some (Operator.holds_ne order))
    · exact .pure rfl
  · exact .pure rfl

theorem fallback_denies (a b : Value) :
    Follows (!·) (fallback h mode levels a b .eq) (fallback h mode levels a b .ne) := by
  cases mode with
  | total =>
    refine .bind fun found => ?_
    rw [Follows, result_bind, result_bind]
    exact congrArg Except.ok (Operator.holds_ne found.2)
  | strict =>
    simp only [Follows, fallback, Operator.isEquality, beq_self_eq_true, Bool.or_true, Bool.true_or,
      if_true, result_bind]
    cases a.isIdentical b <;> rfl

/-! ## One level and all of them -/

theorem dispatch_denies (a b : Value) :
    Follows (!·) (dispatch h mode levels judge a b .eq) (dispatch h mode levels judge a b .ne) := by
  have hrule (a b : Value) : Follows (Option.map (!·)) (typeRule h levels judge a b .eq)
      (typeRule h levels judge a b .ne) := typeRule_denies a b
  have hlast : Follows (!·) (fallback h mode levels a b .eq) (fallback h mode levels a b .ne) :=
    fallback_denies a b
  refine .bind fun left => .bind fun right => .ite ?_ (.bind fun below => .ite ?_ ?_)
  · exact (hrule a b).decideOr ((threeWayRule_denies a b).decideOr hlast)
  · exact (hrule b a).decideOr ((hrule a b).decideOr hlast)
  · exact (hrule a b).decideOr ((hrule b a).decideOr hlast)

theorem unlessInts_denies
    (hab : Follows (!·) (judge a b .eq) (judge a b .ne)) :
    Follows (!·) (unlessInts judge a b .eq) (unlessInts judge a b .ne) := by
  simp only [unlessInts]
  split
  · exact .pure (Operator.holds_ne _)
  · exact hab

/-- **`!=` denies what `==` says**, and fails where and as it does. -/
theorem within_denies (h : Heap) (mode : Mode) (n : Nat) (a b : Value) :
    Follows (!·) (within h mode n a b .eq) (within h mode n a b .ne) := by
  cases n with
  | zero => exact unlessInts_denies rfl
  | succ n => exact unlessInts_denies (dispatch_denies a b)

end Compare

end ValueHeap
