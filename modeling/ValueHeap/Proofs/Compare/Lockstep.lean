import Mathlib.Data.List.Forall2
import ValueHeap.Compare.Rich
import ValueHeap.Proofs.Compare.Settles
import ValueHeap.Proofs.Lockstep

/-!
# Two comparisons side by side

Two comparisons are held against each other whose operands are related value by value: to the parts
of one operand there correspond the parts of the other, in the same order and with the same hashes.
The judges of the parts are held against each other as well, and this is enough for each of the
rules and for one level of all of them.

The judges are asked about identity only where a rule asks, since two parts may be the same value in
one comparison and merely look the same in the other.

## What is here

* `HashedKey.Lifts`, `Entry.Lifts` and `Payload.Lifts` — keys, entries and contents that correspond
  to each other part by part.
* `Compare.Counterpart` — two values that are read as contents that correspond.
* `Compare.sequences_matches`, `Compare.dictsEqual_matches`, `Compare.dictOrder_matches`,
  `Compare.sets_matches` and `Compare.payloadRule_matches` — contents.
* `Compare.typeRule_matches`, `Compare.threeWayRule_matches` and `Compare.dispatch_matches` — the
  rules, and one level of them.
-/

set_option autoImplicit false

namespace ValueHeap

open Answer

/-! ## Contents that correspond -/

/-- Keys that correspond to each other, with the same hash. -/
structure HashedKey.Lifts (V : Value → Value → Prop) (k k' : HashedKey) : Prop where
  value : V k.value k'.value
  hash : k.hash = k'.hash

/-- Entries that correspond to each other. -/
structure Entry.Lifts (V : Value → Value → Prop) (e e' : Entry) : Prop where
  key : e.key.Lifts V e'.key
  value : V e.value e'.value

/-- Contents that correspond to each other part by part.  Contents without parts are the same. -/
def Payload.Lifts (V : Value → Value → Prop) : Payload → Payload → Prop
  | list xs, list ys => List.Forall₂ V xs ys
  | tuple xs, tuple ys => List.Forall₂ V xs ys
  | dict xs, dict ys => List.Forall₂ (Entry.Lifts V) xs ys
  | set xs, set ys => List.Forall₂ (HashedKey.Lifts V) xs ys
  | slice a b c, slice d e f => V a d ∧ V b e ∧ V c f
  | p, q => p = q

namespace Payload

variable {V : Value → Value → Prop} {p p' q q' : Payload}

/-- Contents correspond to themselves if their parts do. -/
theorem Lifts.refl (h : ∀ v ∈ p.parts, V v v) : p.Lifts V p := by
  cases p with
  | list xs => exact List.forall₂_same.2 h
  | tuple xs => exact List.forall₂_same.2 h
  | dict xs =>
    refine List.forall₂_same.2 fun e he => ⟨⟨h _ ?_, rfl⟩, h _ ?_⟩ <;>
      exact List.mem_flatMap.2 ⟨e, he, by simp [Entry.parts]⟩
  | set xs => exact List.forall₂_same.2 fun k hk => ⟨h _ (List.mem_map_of_mem hk), rfl⟩
  | slice a b c => exact ⟨h a (by simp [parts]), h b (by simp [parts]), h c (by simp [parts])⟩
  | _ => rfl

/-- Contents that correspond to each other are of the same kind. -/
theorem Lifts.kindName_eq (h : p.Lifts V p') : p.kindName = p'.kindName := by
  cases p <;> cases p' <;> first | rfl | cases h

theorem Lifts.typeRef_eq (h : p.Lifts V p') : p.typeRef = p'.typeRef := by
  cases p <;> cases p' <;> first | rfl | cases h
  rfl

theorem Lifts.isNominal_eq (h : p.Lifts V p') : p.isNominal = p'.isNominal := by
  cases p <;> cases p' <;> first | rfl | cases h

theorem Lifts.sameKind_iff (hp : p.Lifts V p') (hq : q.Lifts V q') :
    p.SameKind q ↔ p'.SameKind q' := by
  have hkind (p q : Payload) : p.SameKind q ↔
      p.kindName = q.kindName ∧ p.kindName ∉ ["LongInt", "Complex", "Class", "Instance"] := by
    constructor
    · intro h
      cases h <;> simp [kindName]
    · rintro ⟨heq, hne⟩
      cases p <;> cases q <;> first | constructor | simp [kindName] at heq hne
  rw [hkind, hkind, hp.kindName_eq, hq.kindName_eq]

end Payload

namespace Compare

variable {l : Leeway} {V : Value → Value → Prop} {judge judge' : Judge} {op : Operator}

/-- Contents of different kinds have no rule. -/
theorem payloadRule_of_not_sameKind {p q : Payload} (hpq : ¬p.SameKind q) :
    payloadRule judge op p q = pure none := by
  cases p <;> cases q <;> first | rfl | exact absurd (by constructor) hpq

/-! ## Parts -/

/-- Identical values may only be told from others where both comparisons do so. -/
theorem sameOrEqual_matches {a a' b b' : Value} (hid : a = b ↔ a' = b')
    (heq : Matches l Eq (judge a b .eq) (judge' a' b' .eq)) :
    Matches l Eq (sameOrEqual judge a b) (sameOrEqual judge' a' b') :=
  .ite (by rw [Value.isIdentical_iff, Value.isIdentical_iff, hid]) (fun _ => .pure rfl)
    fun _ => heq

theorem valueOrder_matches {a a' b b' : Value} (hid : a = b ↔ a' = b')
    (hlt : Matches l Eq (judge a b .lt) (judge' a' b' .lt))
    (heq : Matches l Eq (judge a b .eq) (judge' a' b' .eq)) :
    Matches l Eq (valueOrder judge a b) (valueOrder judge' a' b') := by
  refine .ite (by rw [Value.isIdentical_iff, Value.isIdentical_iff, hid]) (fun _ => .pure rfl)
    fun _ => ?_
  refine hlt.bind fun lt _ _ _ hlt => hlt ▸ .ite Iff.rfl (fun _ => .pure rfl) fun _ => ?_
  exact heq.bind_eq fun eq _ _ => .ite Iff.rfl (fun _ => .pure rfl) fun _ => .pure rfl

section Contents

variable (hsame : ∀ {a a' b b'}, V a a' → V b b' →
  Matches l Eq (sameOrEqual judge a b) (sameOrEqual judge' a' b'))

include hsame

/-! ## Sequences -/

theorem itemByItem_matches
    (hop : op.isEquality = false → ∀ {a a' b b'}, V a a' → V b b' →
      Matches l Eq (judge a b op) (judge' a' b' op))
    {xs xs' ys ys' : List Value} (hx : List.Forall₂ V xs xs') (hy : List.Forall₂ V ys ys') :
    Matches l Eq (itemByItem judge op xs ys) (itemByItem judge' op xs' ys') := by
  induction hx generalizing ys ys' with
  | nil =>
    cases hy with
    | nil => exact .pure rfl
    | cons _ hrest =>
      simp only [itemByItem, List.length_cons, hrest.length_eq]
      exact .pure rfl
  | @cons x x' xs xs' hxx hrest ih =>
    cases hy with
    | nil =>
      simp only [itemByItem, List.length_cons, hrest.length_eq]
      exact .pure rfl
    | cons hyy hrest' =>
      refine (hsame hxx hyy).bind_eq fun same _ _ => .ite Iff.rfl (fun _ => ih hrest')
        fun _ => ?_
      cases op with
      | eq => exact .pure rfl
      | ne => exact .pure rfl
      | _ => exact hop rfl hxx hyy

theorem sequences_matches
    (hop : op.isEquality = false → ∀ {a a' b b'}, V a a' → V b b' →
      Matches l Eq (judge a b op) (judge' a' b' op))
    {xs xs' ys ys' : List Value} (hx : List.Forall₂ V xs xs') (hy : List.Forall₂ V ys ys') :
    Matches l Eq (sequences judge op xs ys) (sequences judge' op xs' ys') :=
  .ite (by rw [hx.length_eq, hy.length_eq]) (fun _ => .pure rfl)
    fun _ => itemByItem_matches hsame hop hx hy

/-! ## Dicts -/

theorem position_matches {wanted wanted' : HashedKey} {stored stored' : List HashedKey}
    (hw : wanted.Lifts V wanted') (hs : List.Forall₂ (HashedKey.Lifts V) stored stored') :
    Matches l Eq (position judge wanted stored) (position judge' wanted' stored') := by
  induction hs with
  | nil => exact .pure rfl
  | @cons k k' rest rest' hk _ ih =>
    have hnext (found : Bool) : Matches l Eq
        (if found = true then pure (some 0)
          else do
            let place ← position judge wanted rest
            pure (place.map (· + 1)))
        (if found = true then pure (some 0)
          else do
            let place ← position judge' wanted' rest'
            pure (place.map (· + 1))) :=
      .ite Iff.rfl (fun _ => .pure rfl)
        fun _ => ih.bind_eq fun place _ _ => .pure rfl
    rw [position, position]
    refine .ite (by rw [hk.hash, hw.hash]) (fun _ => ?_) fun _ => hnext false
    exact (hsame hk.value hw.value).bind_eq fun found _ _ => hnext found

theorem valueUnder_matches {wanted wanted' : HashedKey} {entries entries' : List Entry}
    (hw : wanted.Lifts V wanted') (he : List.Forall₂ (Entry.Lifts V) entries entries') :
    Matches l (Option.Rel V) (valueUnder judge wanted entries)
      (valueUnder judge' wanted' entries') := by
  have hkeys : List.Forall₂ (HashedKey.Lifts V) (entries.map Entry.key)
      (entries'.map Entry.key) := by
    rw [List.forall₂_map_left_iff, List.forall₂_map_right_iff]
    exact he.imp fun _ _ h => h.key
  have hget (i : Nat) :
      Option.Rel V (entries[i]?.map Entry.value) (entries'[i]?.map Entry.value) := by
    clear hkeys
    induction he generalizing i with
    | nil => exact .none
    | cons h _ ih =>
      cases i with
      | zero => exact .some h.value
      | succ i => exact ih i
  refine (position_matches hsame hw hkeys).bind_eq fun place _ _ => .pure ?_
  cases place with
  | none => exact .none
  | some i => exact hget i

theorem differs_matches {e e' : Entry} {other other' : List Entry} (he : e.Lifts V e')
    (ho : List.Forall₂ (Entry.Lifts V) other other') :
    Matches l Eq (differs judge e other) (differs judge' e' other') := by
  refine (valueUnder_matches hsame he.key ho).bind fun found found' _ _ hfound => ?_
  cases hfound with
  | none => exact .pure rfl
  | some hvalue =>
    exact (hsame he.value hvalue).bind_eq fun same _ _ => .pure rfl

theorem entriesWithin_matches {x x' y y' : List Entry} (hx : List.Forall₂ (Entry.Lifts V) x x')
    (hy : List.Forall₂ (Entry.Lifts V) y y') :
    Matches l Eq (entriesWithin judge y x) (entriesWithin judge' y' x') := by
  induction hx with
  | nil => exact .pure rfl
  | cons he _ ih =>
    exact (differs_matches hsame he hy).bind_eq fun _ _ _ =>
      .ite Iff.rfl (fun _ => .pure rfl) fun _ => ih

theorem dictsEqual_matches {x x' y y' : List Entry} (hx : List.Forall₂ (Entry.Lifts V) x x')
    (hy : List.Forall₂ (Entry.Lifts V) y y') :
    Matches l Eq (dictsEqual judge x y) (dictsEqual judge' x' y') :=
  .ite (by rw [hx.length_eq, hy.length_eq]) (fun _ => entriesWithin_matches hsame hx hy)
    fun _ => .pure rfl

/-- The entries found correspond to each other, if the judges match under `<` as well. -/
theorem smallestFrom_matches
    (hlt : ∀ {a a' b b'}, V a a' → V b b' → Matches l Eq (judge a b .lt) (judge' a' b' .lt))
    {rest rest' other other' : List Entry} {best best' : Option Entry}
    (hb : Option.Rel (Entry.Lifts V) best best') (hr : List.Forall₂ (Entry.Lifts V) rest rest')
    (ho : List.Forall₂ (Entry.Lifts V) other other') :
    Matches l (Option.Rel (Entry.Lifts V)) (smallestFrom judge other best rest)
      (smallestFrom judge' other' best' rest') := by
  induction hr generalizing best best' with
  | nil => exact .pure hb
  | @cons e e' rest rest' he _ ih =>
    have hnext (better : Bool) : Matches l (Option.Rel (Entry.Lifts V))
        (smallestFrom judge other (if better = true then some e else best) rest)
        (smallestFrom judge' other' (if better = true then some e' else best') rest') := by
      refine ih ?_
      cases better with
      | true => exact .some he
      | false => exact hb
    have hlook (below : Bool) : Matches l (Option.Rel (Entry.Lifts V))
        (if below = true then differs judge e other >>= fun better =>
            smallestFrom judge other (if better = true then some e else best) rest
          else (pure false : Answer Bool) >>= fun better =>
            smallestFrom judge other (if better = true then some e else best) rest)
        (if below = true then differs judge' e' other' >>= fun better =>
            smallestFrom judge' other' (if better = true then some e' else best') rest'
          else (pure false : Answer Bool) >>= fun better =>
            smallestFrom judge' other' (if better = true then some e' else best') rest') :=
      .ite Iff.rfl
        (fun _ => (differs_matches hsame he ho).bind_eq fun better _ _ => hnext better)
        fun _ => hnext false
    cases hb with
    | none => exact hlook true
    | some hcurrent =>
      exact (hlt he.key.value hcurrent.key.value).bind_eq fun below _ _ => hlook below

/-- Two dicts have the same order, if the judges match under `<`, and about the order of two
values. -/
theorem dictOrder_matches
    (hlt : ∀ {a a' b b'}, V a a' → V b b' → Matches l Eq (judge a b .lt) (judge' a' b' .lt))
    (horder : ∀ {a a' b b'}, V a a' → V b b' →
      Matches l Eq (valueOrder judge a b) (valueOrder judge' a' b'))
    {x x' y y' : List Entry} (hx : List.Forall₂ (Entry.Lifts V) x x')
    (hy : List.Forall₂ (Entry.Lifts V) y y') :
    Matches l Eq (dictOrder judge x y) (dictOrder judge' x' y') := by
  rw [dictOrder, dictOrder, hx.length_eq, hy.length_eq]
  refine .ite Iff.rfl (fun _ => .pure rfl) fun _ => ?_
  refine (smallestFrom_matches hsame hlt .none hx hy).bind fun first first' _ _ hfirst => ?_
  cases hfirst with
  | none => exact .pure rfl
  | some he =>
    refine (smallestFrom_matches hsame hlt .none hy hx).bind fun second second' _ _ hsecond => ?_
    cases hsecond with
    | none => exact .pure rfl
    | some hf =>
      refine (horder he.key.value hf.key.value).bind_eq fun keys _ _ => ?_
      cases keys with
      | eq => exact horder he.value hf.value
      | _ => exact .pure rfl

/-! ## Sets -/

theorem contains_matches {wanted wanted' : HashedKey} {stored stored' : List HashedKey}
    (hw : wanted.Lifts V wanted') (hs : List.Forall₂ (HashedKey.Lifts V) stored stored') :
    Matches l Eq (contains judge wanted stored) (contains judge' wanted' stored') :=
  (position_matches hsame hw hs).bind_eq fun _ _ _ => .pure rfl

theorem elementsWithin_matches {x x' y y' : List HashedKey}
    (hx : List.Forall₂ (HashedKey.Lifts V) x x') (hy : List.Forall₂ (HashedKey.Lifts V) y y') :
    Matches l Eq (elementsWithin judge y x) (elementsWithin judge' y' x') := by
  induction hx with
  | nil => exact .pure rfl
  | cons hk _ ih =>
    exact (contains_matches hsame hk hy).bind_eq fun _ _ _ =>
      .ite Iff.rfl (fun _ => ih) fun _ => .pure rfl

theorem isSubset_matches {x x' y y' : List HashedKey}
    (hx : List.Forall₂ (HashedKey.Lifts V) x x') (hy : List.Forall₂ (HashedKey.Lifts V) y y') :
    Matches l Eq (isSubset judge x y) (isSubset judge' x' y') :=
  .ite (by rw [hx.length_eq, hy.length_eq]) (fun _ => .pure rfl)
    fun _ => elementsWithin_matches hsame hx hy

theorem sets_matches {x x' y y' : List HashedKey}
    (hx : List.Forall₂ (HashedKey.Lifts V) x x') (hy : List.Forall₂ (HashedKey.Lifts V) y y') :
    Matches l Eq (sets judge op x y) (sets judge' op x' y') := by
  have hxy := isSubset_matches hsame hx hy
  have hyx := isSubset_matches hsame hy hx
  have hlength := And.intro hx.length_eq hy.length_eq
  cases op with
  | ne =>
    show Matches l Eq
      (if x.length = y.length then isSubset judge x y >>= fun equal => pure !equal
        else (pure false : Answer Bool) >>= fun equal => pure !equal)
      (if x'.length = y'.length then isSubset judge' x' y' >>= fun equal => pure !equal
        else (pure false : Answer Bool) >>= fun equal => pure !equal)
    exact .ite (by rw [hlength.1, hlength.2])
      (fun _ => hxy.bind_eq fun equal _ _ => .pure rfl) fun _ => .pure rfl
  | lt => exact .ite (by rw [hlength.1, hlength.2]) (fun _ => hxy) fun _ => .pure rfl
  | le => exact hxy
  | eq => exact .ite (by rw [hlength.1, hlength.2]) (fun _ => hxy) fun _ => .pure rfl
  | gt => exact .ite (by rw [hlength.1, hlength.2]) (fun _ => hyx) fun _ => .pure rfl
  | ge => exact hyx

/-! ## Rules -/

theorem payloadRule_matches
    (hop : op.isEquality = false → ∀ {a a' b b'}, V a a' → V b b' →
      Matches l Eq (judge a b op) (judge' a' b' op))
    {p p' q q' : Payload} (hp : p.Lifts V p') (hq : q.Lifts V q') :
    Matches l Eq (payloadRule judge op p q) (payloadRule judge' op p' q') := by
  have hkind := hp.sameKind_iff hq
  by_cases hpq : p.SameKind q
  · have hpq' := hkind.1 hpq
    -- the kinds correspond as well, so what is left is one rule on both sides
    cases hpq <;> cases hpq' <;> try (cases hp; done)
    case str.str =>
      cases hp
      cases hq
      exact .pure rfl
    case bytes.bytes =>
      cases hp
      cases hq
      exact .pure rfl
    case range.range =>
      cases hp
      cases hq
      exact .pure rfl
    case list.list => exact (sequences_matches hsame hop hp hq).map fun _ _ => congrArg some
    case tuple.tuple => exact (sequences_matches hsame hop hp hq).map fun _ _ => congrArg some
    case slice.slice =>
      obtain ⟨had, hbe, hcf⟩ := hp
      obtain ⟨had', hbe', hcf'⟩ := hq
      exact (sequences_matches hsame hop (.cons had (.cons hbe (.cons hcf .nil)))
        (.cons had' (.cons hbe' (.cons hcf' .nil)))).map fun _ _ => congrArg some
    case dict.dict =>
      exact .ite Iff.rfl (fun _ => (dictsEqual_matches hsame hp hq).map fun _ _ heq => heq ▸ rfl)
        fun _ => .pure rfl
    case set.set => exact (sets_matches hsame hp hq).map fun _ _ => congrArg some
  · rw [payloadRule_of_not_sameKind hpq, payloadRule_of_not_sameKind (mt hkind.2 hpq)]
    exact .pure rfl

end Contents

/-- Two values that are the same, or that are read as contents that correspond to each other.  A
class or an instance corresponds to itself only, since it is told from others by identity. -/
inductive Counterpart (l : Leeway) (V : Value → Value → Prop) (h : Heap) (n : Nat) (k : Heap)
    (m : Nat) : Value → Value → Prop
  | immediate {v : Value} (hv : v.slot? = none) : Counterpart l V h n k m v v
  | slot {s t : Slot} (hread : Matches l (fun p q => p.Lifts V q ∧ (p.isNominal = true → s = t))
      (Answer.look n (h.read s)) (Answer.look m (k.read t))) :
      Counterpart l V h n k m (.ref s) (.ref t)

section Rules

variable {h k : Heap} {n m : Nat} {a a' b b' : Value}

/-- A value is its own counterpart in one heap. -/
theorem Counterpart.refl (hfault : ∀ f, l.both (.fault f n) (.fault f n))
    (hparts : ∀ s p, a = .ref s → h.find? s = some p → ∀ v ∈ p.parts, V v v) :
    Counterpart l V h n h n a a := by
  cases a with
  | ref s =>
    refine .slot ?_
    cases hread : h.read s with
    | error f => exact .both rfl rfl (hfault f) fun _ => rfl
    | ok p => exact .pure ⟨.refl (hparts s p rfl (Heap.read_eq_ok_iff.1 hread)), fun _ => rfl⟩
  | _ => exact .immediate rfl

/-- What is read off what was looked up. -/
theorem look_map {α β : Type} (u : Except Fault α) (f : α → β) :
    Answer.look n (u.map f) = f <$> Answer.look n u := by
  cases u <;> rfl

theorem Counterpart.numberOf_matches (ha : Counterpart l V h n k m a a') :
    Matches l Eq (Answer.look n (numberOf h a)) (Answer.look m (numberOf k a')) := by
  cases ha with
  | immediate hv =>
    cases a with
    | ref s => cases hv
    | _ => exact .pure rfl
  | slot hread =>
    rw [numberOf, numberOf, look_map, look_map]
    refine hread.map ?_
    rintro p q ⟨hpq, -⟩
    cases p <;> cases q <;> cases hpq <;> rfl

theorem Counterpart.typeOf_matches (ha : Counterpart l V h n k m a a') :
    Matches l Eq (Answer.look n (h.typeOf a)) (Answer.look m (k.typeOf a')) := by
  cases ha with
  | immediate hv =>
    cases a with
    | ref s => cases hv
    | _ => exact .pure rfl
  | slot hread =>
    rw [Heap.typeOf, Heap.typeOf, look_map, look_map]
    exact hread.map fun p q hpq => hpq.1.typeRef_eq

theorem identityRule_congr (hid : a = b ↔ a' = b') (op : Operator) :
    identityRule a b op = identityRule a' b' op := by
  have hsame : a.isIdentical b = a'.isIdentical b' := by
    rw [Bool.eq_iff_iff, Value.isIdentical_iff, Value.isIdentical_iff, hid]
  rw [identityRule, identityRule, hsame]

theorem referenceRule_immediate {s : Slot} {p : Payload} (hb : b.slot? = none) :
    referenceRule h n judge op p (.ref s) b = pure none := by
  cases b with
  | ref t => cases hb
  | _ => cases p <;> rfl

theorem referenceRule_slot (s t : Slot) (p : Payload) :
    referenceRule h n judge op p (.ref s) (.ref t) = Answer.look n (h.read t) >>= fun q =>
      if p.isNominal then pure (identityRule (.ref s) (.ref t) op)
      else payloadRule judge op p q := by
  cases hread : h.read t <;> cases p <;> simp only [referenceRule, hread] <;> rfl

section

variable (hsame : ∀ {a a' b b'}, V a a' → V b b' →
    Matches l Eq (sameOrEqual judge a b) (sameOrEqual judge' a' b'))
  (hop : op.isEquality = false → ∀ {a a' b b'}, V a a' → V b b' →
    Matches l Eq (judge a b op) (judge' a' b' op))

include hsame hop

theorem referenceRule_matches {s t : Slot} {p q : Payload} (hp : h.find? s = some p)
    (hq : k.find? t = some q) (hpq : p.Lifts V q) (hst : p.isNominal = true → s = t)
    (hb : Counterpart l V h n k m b b') :
    Matches l Eq (referenceRule h n judge op p (.ref s) b)
      (referenceRule k m judge' op q (.ref t) b') := by
  cases hb with
  | immediate hv =>
    rw [referenceRule_immediate hv, referenceRule_immediate hv]
    exact .pure rfl
  | @slot u u' hread =>
    rw [referenceRule_slot, referenceRule_slot]
    refine hread.bind fun p' q' hp' hq' hpq' => ?_
    rw [Answer.result_look_eq_ok, Heap.read_eq_ok_iff] at hp' hq'
    refine .ite (by rw [hpq.isNominal_eq]) (fun hnominal => .pure (identityRule_congr ?_ op))
      fun _ => payloadRule_matches hsame hop hpq hpq'.1
    -- a class or an instance has the same slot on both sides, and so has what is identical to it
    rw [Value.ref.injEq, Value.ref.injEq]
    have hst := hst hnominal
    subst hst
    constructor
    · rintro rfl
      rw [hp] at hp'
      exact hpq'.2 (Option.some.inj hp' ▸ hnominal)
    · rintro rfl
      rw [hq] at hq'
      refine (hpq'.2 ?_).symm
      rw [hpq'.1.isNominal_eq, ← Option.some.inj hq', ← hpq.isNominal_eq, hnominal]

/-- The rule of a type, where two numbers are compared alike. -/
theorem typeRule_matches
    (hnumber : ∀ i j, numberOf h a = .ok (some i) → numberOf h b = .ok (some j) →
      Matches l Eq (numberRule i j op) (numberRule i j op))
    (ha : Counterpart l V h n k m a a') (hb : Counterpart l V h n k m b b') :
    Matches l Eq (typeRule h n judge a b op) (typeRule k m judge' a' b' op) := by
  refine ha.numberOf_matches.bind_eq fun left hleft _ => ?_
  rw [Answer.result_look_eq_ok] at hleft
  cases left with
  | some i =>
    refine hb.numberOf_matches.bind_eq fun right hright _ => ?_
    rw [Answer.result_look_eq_ok] at hright
    cases right with
    | some j => exact hnumber i j hleft hright
    | none => exact .pure rfl
  | none =>
    cases ha with
    | immediate hv =>
      have hrule : Matches l Eq (pure (identityRule a b op) : Answer (Option Bool))
          (pure (identityRule a b' op)) := by
        cases hb with
        | immediate => exact .pure rfl
        | slot => exact .pure (identityRule_congr (by constructor <;> (rintro rfl; cases hv)) op)
      cases a with
      | ref s => cases hv
      | _ => exact hrule
    | slot hread =>
      refine hread.bind fun p q hp hq hpq => ?_
      rw [Answer.result_look_eq_ok, Heap.read_eq_ok_iff] at hp hq
      exact referenceRule_matches hsame hop hp hq hpq.1 hpq.2 hb

end

theorem threeWayRule_matches {mode : Mode}
    (hsame : ∀ {a a' b b'}, V a a' → V b b' →
      Matches l Eq (sameOrEqual judge a b) (sameOrEqual judge' a' b'))
    (hlt : ∀ {a a' b b'}, V a a' → V b b' → Matches l Eq (judge a b .lt) (judge' a' b' .lt))
    (horder : ∀ {a a' b b'}, V a a' → V b b' →
      Matches l Eq (valueOrder judge a b) (valueOrder judge' a' b'))
    (ha : Counterpart l V h n k m a a') (hb : Counterpart l V h n k m b b') :
    Matches l Eq (threeWayRule h mode n judge a b op) (threeWayRule k mode m judge' a' b' op) := by
  cases mode with
  | strict => exact .pure rfl
  | total =>
    cases ha with
    | immediate hv =>
      cases a with
      | ref s => cases hv
      | _ => exact .pure rfl
    | slot hread =>
      cases hb with
      | immediate hv =>
        cases b with
        | ref t => cases hv
        | _ => exact .pure rfl
      | slot hread' =>
        refine hread.bind fun p p' _ _ hp => hread'.bind fun q q' _ _ hq => ?_
        cases p <;> cases p' <;> try (cases hp.1; done)
        case dict.dict =>
          cases q <;> cases q' <;> try (cases hq.1; done)
          case dict.dict =>
            exact (dictOrder_matches hsame hlt horder hp.1 hq.1).bind_eq fun _ _ _ => .pure rfl
          all_goals exact .pure rfl
        all_goals exact .pure rfl

/-- One level matches if each of the rules does, and what is done where they leave the question
open. -/
theorem dispatch_matches {mode mode' : Mode}
    (ha : Matches l Eq (Answer.look n (h.typeOf a)) (Answer.look m (k.typeOf a')))
    (hb : Matches l Eq (Answer.look n (h.typeOf b)) (Answer.look m (k.typeOf b')))
    (hsub : ∀ s t, h.typeOf a = .ok s → h.typeOf b = .ok t →
      Matches l Eq (Answer.look n (h.isSubtype t s)) (Answer.look m (k.isSubtype t s)))
    (hrule : Matches l Eq (typeRule h n judge a b op) (typeRule k m judge' a' b' op))
    (hother : Matches l Eq (typeRule h n judge b a op.swapped)
      (typeRule k m judge' b' a' op.swapped))
    (hsame : ∀ s, h.typeOf a = .ok s → h.typeOf b = .ok s →
      (typeRule h n judge a b op).result = .ok none →
      (typeRule k m judge' a' b' op).result = .ok none → Matches l Eq
        (Answer.decideOr (threeWayRule h mode n judge a b op) (fallback h mode n a b op))
        (Answer.decideOr (threeWayRule k mode' m judge' a' b' op) (fallback k mode' m a' b' op)))
    (hlast : ∀ s t, s ≠ t → h.typeOf a = .ok s → h.typeOf b = .ok t →
      (typeRule h n judge a b op).result = .ok none →
      (typeRule k m judge' a' b' op).result = .ok none →
      Matches l Eq (fallback h mode n a b op) (fallback k mode' m a' b' op)) :
    Matches l Eq (dispatch h mode n judge a b op) (dispatch k mode' m judge' a' b' op) := by
  refine ha.bind_eq fun s hs _ => hb.bind_eq fun t ht _ => ?_
  rw [Answer.result_look_eq_ok] at hs ht
  refine .ite Iff.rfl (fun heq => hrule.decideOr (hsame s hs (heq ▸ ht))) fun hne => ?_
  have hlast := hlast s t hne hs ht
  refine (hsub s t hs ht).bind_eq fun below _ _ => .ite Iff.rfl (fun _ => ?_) fun _ => ?_
  · exact hother.decideOr fun _ _ => hrule.decideOr hlast
  · exact hrule.decideOr fun hnone hnone' => hother.decideOr fun _ _ => hlast hnone hnone'

/-- Machine integers are compared on the spot, on both sides. -/
theorem unlessInts_matches (ha : Counterpart l V h n k m a a') (hb : Counterpart l V h n k m b b')
    (hjudge : Matches l Eq (judge a b op) (judge' a' b' op)) :
    Matches l Eq (unlessInts judge a b op) (unlessInts judge' a' b' op) := by
  cases ha with
  | slot => exact hjudge
  | immediate =>
    cases hb with
    | slot => cases a <;> exact hjudge
    | immediate => cases a <;> cases b <;> first | exact hjudge | exact .pure rfl

end Rules

end Compare

end ValueHeap
