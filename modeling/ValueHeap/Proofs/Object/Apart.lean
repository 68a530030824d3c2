import ValueHeap.Proofs.Compare.Settles
import ValueHeap.Proofs.Object.Normal

/-!
# Keys that are told apart

When a key goes into a dict or a set it is compared with those that are there and have its hash, and
each comparison has so many levels of nesting to go.  A key that goes in behind the others has been
told apart from them within these levels.

Told apart once, keys are told apart with any more levels, and they are not the same key.  So a dict
or a set of such keys, built up again from nothing, comes out as it is.

## What is here

* `Object.equalWithin` and `Object.judged` — equality of keys, as far as it is found out with so
  many levels, and the same with identical keys taken for equal.
* `Object.equalWithin_mono` and `Object.equalWithin_eq` — more levels do not change what is found
  out, and it is right.
* `Object.KeysApart` — keys that have hashes and are told apart.
* `Object.KeysApart.foldl_insertPair` and `Object.KeysApart.foldl_addElement` — they are kept as
  they are.
-/

set_option autoImplicit false

namespace ValueHeap.Object

/-! ## Equality within levels -/

/-- Whether an object is a machine integer. -/
def isInt : Object → Bool
  | int _ => true
  | _ => false

/-- Identical keys are taken for equal. -/
def orIdentical (judge : Object → Object → Option Bool) (a b : Object) : Option Bool :=
  if identical a b then some true else judge a b

/-- Whether two lists of keys of the same length are equal item by item, where it can be found
out. -/
def equalItemsBy (judge : Object → Object → Option Bool) : List Object → List Object → Option Bool
  | x :: xs, y :: ys =>
    (orIdentical judge x y).bind fun same =>
      if same then equalItemsBy judge xs ys else some false
  | _, _ => some true

/-- Whether two keys are equal, if it can be found out with so many levels.  Two machine integers
take none, and the items of two tuples take further ones. -/
def equalWithin : Nat → Object → Object → Option Bool
  | 0, a, b => if a.isInt && b.isInt then some (plainEqual a b) else Option.none
  | levels + 1, a, b =>
    match a, b with
    | tuple xs, tuple ys =>
      if xs.length = ys.length then equalItemsBy (equalWithin levels) xs ys else some false
    | a, b => some (plainEqual a b)

/-- Whether two keys are identical or else equal, if it can be found out with so many levels. -/
def judged (levels : Nat) (a b : Object) : Option Bool := orIdentical (equalWithin levels) a b

variable {judge judge' : Object → Object → Option Bool} {levels levels' : Nat} {a b : Object}
  {r : Bool}

/-- Two keys are both tuples, or there is no need to go into parts. -/
theorem tuples_or_plain (a b : Object) :
    (∃ xs ys, a = tuple xs ∧ b = tuple ys) ∨ ∀ xs ys, a = tuple xs → b ≠ tuple ys := by
  by_cases h : ∃ xs ys, a = tuple xs ∧ b = tuple ys
  · exact Or.inl h
  · exact Or.inr fun xs ys ha hb => h ⟨xs, ys, ha, hb⟩

theorem equalWithin_succ_of_plain (hab : ∀ xs ys, a = tuple xs → b ≠ tuple ys) :
    equalWithin (levels + 1) a b = some (plainEqual a b) := by
  rw [equalWithin]
  exact hab

theorem equal_of_plain (hab : ∀ xs ys, a = tuple xs → b ≠ tuple ys) :
    equal a b = plainEqual a b := by
  rw [equal.eq_def]
  split
  · exact absurd rfl (hab _ _ rfl)
  · rfl

/-! ## More levels -/

theorem orIdentical_mono (h : ∀ r, judge a b = some r → judge' a b = some r)
    (hr : orIdentical judge a b = some r) : orIdentical judge' a b = some r := by
  rw [orIdentical] at hr ⊢
  split
  · rwa [if_pos ‹_›] at hr
  · rw [if_neg ‹_›] at hr
    exact h r hr

theorem equalItemsBy_mono (h : ∀ a b r, judge a b = some r → judge' a b = some r)
    {xs ys : List Object} (hr : equalItemsBy judge xs ys = some r) :
    equalItemsBy judge' xs ys = some r := by
  induction xs generalizing ys with
  | nil => exact hr
  | cons x xs ih =>
    cases ys with
    | nil => exact hr
    | cons y ys =>
      obtain ⟨same, hsame, hr⟩ := Option.bind_eq_some_iff.1 hr
      refine Option.bind_eq_some_iff.2 ⟨same, orIdentical_mono (h x y) hsame, ?_⟩
      cases same with
      | true => exact ih hr
      | false => exact hr

/-- **More levels do not change what is found out.** -/
theorem equalWithin_mono (hle : levels ≤ levels') (hr : equalWithin levels a b = some r) :
    equalWithin levels' a b = some r := by
  induction levels generalizing levels' a b r with
  | zero =>
    rw [equalWithin, Option.ite_none_right_eq_some, Bool.and_eq_true] at hr
    cases levels' with
    | zero => rw [equalWithin, if_pos (by rw [hr.1.1, hr.1.2]; rfl), hr.2]
    | succ m =>
      rw [equalWithin_succ_of_plain, hr.2]
      rintro xs ys rfl
      exact absurd hr.1.1 Bool.false_ne_true
  | succ n ih =>
    obtain ⟨m, rfl⟩ := Nat.exists_eq_add_of_le' (Nat.le_trans (Nat.le_add_left 1 n) hle)
    rcases tuples_or_plain a b with ⟨xs, ys, rfl, rfl⟩ | hplain
    · rw [equalWithin] at hr ⊢
      split at hr
      · rw [if_pos ‹_›]
        exact equalItemsBy_mono (fun _ _ _ => ih (Nat.le_of_succ_le_succ hle)) hr
      · rwa [if_neg ‹_›]
    · rwa [equalWithin_succ_of_plain hplain] at hr ⊢

theorem judged_mono (hle : levels ≤ levels') (hr : judged levels a b = some r) :
    judged levels' a b = some r :=
  orIdentical_mono (fun _ => equalWithin_mono hle) hr

/-! ## What is found out is right -/

theorem orIdentical_eq (h : ∀ r, judge a b = some r → r = equal a b)
    (hr : orIdentical judge a b = some r) : r = (identical a b || equal a b) := by
  rw [orIdentical] at hr
  split at hr
  · next hid =>
    rw [hid, Bool.true_or]
    exact (Option.some.inj hr).symm
  · next hid =>
    rw [Bool.not_eq_true] at hid
    rw [hid, Bool.false_or]
    exact h r hr

theorem equalItemsBy_eq (h : ∀ a b r, judge a b = some r → r = equal a b) {xs ys : List Object}
    (hlen : xs.length = ys.length) (hr : equalItemsBy judge xs ys = some r) :
    r = equalItems xs ys := by
  induction xs generalizing ys with
  | nil =>
    obtain rfl := List.length_eq_zero_iff.1 hlen.symm
    exact (Option.some.inj hr).symm
  | cons x xs ih =>
    cases ys with
    | nil => cases hlen
    | cons y ys =>
      obtain ⟨same, hsame, hr⟩ := Option.bind_eq_some_iff.1 hr
      rw [equalItems, ← orIdentical_eq (h x y) hsame]
      cases same with
      | true => exact ih (Nat.succ.inj hlen) hr
      | false => exact (Option.some.inj hr).symm

theorem equalItems_of_length_ne {xs ys : List Object} (hlen : xs.length ≠ ys.length) :
    equalItems xs ys = false := by
  induction xs generalizing ys with
  | nil =>
    cases ys with
    | nil => exact absurd rfl hlen
    | cons y ys => rfl
  | cons x xs ih =>
    cases ys with
    | nil => rfl
    | cons y ys => rw [equalItems, ih (fun heq => hlen (congrArg (· + 1) heq)), Bool.and_false]

/-- **What is found out within any number of levels is right.** -/
theorem equalWithin_eq (hr : equalWithin levels a b = some r) : r = equal a b := by
  induction levels generalizing a b r with
  | zero =>
    rw [equalWithin, Option.ite_none_right_eq_some, Bool.and_eq_true] at hr
    rw [equal_of_plain, ← Option.some.inj hr.2]
    rintro xs ys rfl
    exact absurd hr.1.1 Bool.false_ne_true
  | succ n ih =>
    rcases tuples_or_plain a b with ⟨xs, ys, rfl, rfl⟩ | hplain
    · rw [equalWithin] at hr
      rw [equal]
      split at hr
      · exact equalItemsBy_eq (fun _ _ _ => ih) ‹_› hr
      · rw [equalItems_of_length_ne ‹_›]
        exact (Option.some.inj hr).symm
    · rw [equalWithin_succ_of_plain hplain] at hr
      rw [equal_of_plain hplain]
      exact (Option.some.inj hr).symm

theorem judged_eq (hr : judged levels a b = some r) : r = (identical a b || equal a b) :=
  orIdentical_eq (fun _ => equalWithin_eq) hr

/-! ## Keys that are kept -/

/-- Keys that have hashes, and of which those with the same hash are told apart with so many
levels. -/
structure KeysApart (levels : Nat) (keys : List Object) : Prop where
  hashable : ∀ k ∈ keys, k.keyHash.isSome
  apart : keys.Pairwise fun k l => k.keyHash = l.keyHash → judged levels k l = some false

theorem KeysApart.nil (levels : Nat) : KeysApart levels [] :=
  ⟨fun _ hk => absurd hk List.not_mem_nil, .nil⟩

theorem KeysApart.concat {keys : List Object} {k : Object} (hkeys : KeysApart levels keys)
    (hk : k.keyHash.isSome)
    (hnew : ∀ l ∈ keys, l.keyHash = k.keyHash → judged levels l k = some false) :
    KeysApart levels (keys ++ [k]) where
  hashable := List.forall_mem_append.2 ⟨hkeys.hashable, List.forall_mem_singleton.2 hk⟩
  apart := by
    refine List.pairwise_append.2 ⟨hkeys.apart, List.pairwise_singleton _ _, fun l hl k' hk' => ?_⟩
    rw [List.mem_singleton.1 hk']
    exact hnew l hl

theorem immediate?_inj {v : Value} (ha : a.immediate? = some v) (hb : b.immediate? = some v) :
    a = b := by
  cases a <;> cases ha <;> cases b <;> cases hb <;> rfl

theorem eq_of_identical (h : identical a b = true) : a = b := by
  rw [identical] at h
  split at h
  · next v w ha hb =>
    obtain rfl := Value.isIdentical_iff.1 h
    exact immediate?_inj ha hb
  · cases h

/-- Keys that are told apart are not the same. -/
theorem sameKey_eq_false (h : a.keyHash = b.keyHash → judged levels a b = some false) :
    sameKey a b = false := by
  have hboth (heq : a.keyHash = b.keyHash) : identical a b = false ∧ equal a b = false :=
    Bool.or_eq_false_iff.1 (judged_eq (h heq)).symm
  rw [sameKey, Bool.or_eq_false_iff, Bool.and_eq_false_imp, beq_iff_eq]
  refine ⟨Bool.eq_false_iff.2 fun hid => ?_, fun heq => (hboth heq).2⟩
  rw [(hboth (congrArg keyHash (eq_of_identical hid))).1] at hid
  cases hid

theorem sameKey_eq_true (hash : a.keyHash = b.keyHash) (h : judged levels a b = some true) :
    sameKey a b = true := by
  rw [sameKey, hash, beq_self_eq_true, Bool.true_and, ← judged_eq h]

theorem KeysApart.not_same {keys : List Object} (hkeys : KeysApart levels keys) :
    keys.Pairwise fun k l => sameKey k l = false :=
  hkeys.apart.imp sameKey_eq_false

theorem insertPair_of_new {done : List (Object × Object)} {pair : Object × Object}
    (hnew : ∀ e ∈ done, sameKey e.1 pair.1 = false) : insertPair done pair = done ++ [pair] := by
  rw [insertPair, List.findIdx?_eq_none_iff.2 hnew]

theorem addElement_of_new {done : List Object} {o : Object}
    (hnew : ∀ e ∈ done, sameKey e o = false) : addElement done o = done ++ [o] := by
  rw [addElement, List.any_eq_false.2 fun e he => Bool.eq_false_iff.1 (hnew e he)]
  rfl

/-- Taking in one item after the other leaves a list as it is when each of them goes behind those
before it. -/
theorem foldl_eq_of_concat {α : Type} {step : List α → α → List α} {R : α → α → Prop} {xs : List α}
    (hxs : xs.Pairwise R)
    (hstep : ∀ done x, (∀ y ∈ done, R y x) → step done x = done ++ [x]) :
    xs.foldl step [] = xs := by
  have hfold (rest done : List α) (hdone : (done ++ rest).Pairwise R) :
      rest.foldl step done = done ++ rest := by
    induction rest generalizing done with
    | nil => exact (List.append_nil done).symm
    | cons x rest ih =>
      rw [List.foldl_cons, hstep done x fun y hy => (List.pairwise_append.1 hdone).2.2 y hy x
        List.mem_cons_self, ih, List.append_assoc, List.singleton_append]
      rwa [List.append_assoc, List.singleton_append]
  exact hfold xs [] hxs

/-- **A dict of keys that are told apart is kept as it is.** -/
theorem KeysApart.foldl_insertPair {pairs : List (Object × Object)}
    (hkeys : KeysApart levels (pairs.map Prod.fst)) : pairs.foldl insertPair [] = pairs :=
  foldl_eq_of_concat (List.pairwise_map.1 hkeys.not_same) fun _ _ => insertPair_of_new

/-- **A set of elements that are told apart is kept as it is.** -/
theorem KeysApart.foldl_addElement {elements : List Object} (hkeys : KeysApart levels elements) :
    elements.foldl addElement [] = elements :=
  foldl_eq_of_concat hkeys.not_same fun _ _ => addElement_of_new

end ValueHeap.Object
