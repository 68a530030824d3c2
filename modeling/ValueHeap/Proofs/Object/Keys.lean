import ValueHeap.Proofs.Compare.Level
import ValueHeap.Proofs.Object.Spells

/-!
# Keys as values and as objects

What hashing and comparing do with values that spell objects can be told from the objects.  The one
thing that a value knows beyond its object is which slots it takes.  It matters only for identity,
and does not come up where two values have no slot in common.

## What is here

* `Heap.Spells.hash_eq` — the hash of a value is that of its object.
* `Compare.Finds` — a comparison of values that finds out what one of objects does.
* `Compare.within_finds` — rich comparison finds two keys equal or different as their objects are.
-/

set_option autoImplicit false

namespace ValueHeap

namespace Heap

variable {h : Heap} {levels : Nat} {vs : List Value} {os : List Object} {v : Value} {o : Object}
  {slots : Multiset Slot}

/-! ## One value -/

/-- A value that spells an object stands for it without a slot, or its contents describe it. -/
theorem Spells.cases (hv : h.Spells levels [v] [o] slots) :
    o.immediate? = some v ∨ ∃ s p parts slots', v = .ref s ∧ h.find? s = some p ∧
      p.Describes levels parts o ∧ h.Spells levels p.parts parts slots' ∧ slots = s ::ₘ slots' := by
  cases hv with
  | immediate hv rest => exact Or.inl hv
  | contents hp ho hparts rest =>
    cases rest
    exact Or.inr ⟨_, _, _, _, rfl, hp, ho, hparts, by rw [add_zero]⟩

theorem immediate?_of_describes {p : Payload} {parts : List Object}
    (ho : p.Describes levels parts o) : o.immediate? = none := by
  cases ho <;> rfl

/-- The contents of a reference that spells an object describe it. -/
theorem Spells.contents_of_ref {s : Slot} {p : Payload} (hv : h.Spells levels [.ref s] [o] slots)
    (hp : h.find? s = some p) :
    ∃ parts slots', p.Describes levels parts o ∧ h.Spells levels p.parts parts slots' ∧
      slots = s ::ₘ slots' := by
  rcases hv.cases with hv | ⟨_, q, parts, slots', hs, hq, ho, hparts, hslots⟩
  · cases slot?_of_immediate hv
  · cases hs
    obtain rfl := Option.some.inj (hp.symm.trans hq)
    exact ⟨parts, slots', ho, hparts, hslots⟩

/-- The contents for an object that needs a slot. -/
theorem Spells.contents_of_none (hv : h.Spells levels [v] [o] slots) (ho : o.immediate? = none) :
    ∃ s p parts slots', v = .ref s ∧ h.find? s = some p ∧ p.Describes levels parts o ∧
      h.Spells levels p.parts parts slots' ∧ slots = s ::ₘ slots' := by
  refine hv.cases.resolve_left fun hv => ?_
  rw [ho] at hv
  cases hv

theorem Spells.typeOf (hv : h.Spells levels [v] [o] slots) :
    ∃ ty, h.typeOf v = .ok (.builtin ty) := by
  rcases hv.cases with hv | ⟨s, p, parts, slots', rfl, hp, ho, -, -⟩
  · cases o <;> cases hv <;> exact ⟨_, rfl⟩
  · rw [typeOf_ref hp]
    cases ho <;> exact ⟨_, rfl⟩

theorem Spells.numberOf (hv : h.Spells levels [v] [o] slots) :
    Compare.numberOf h v = .ok o.number? := by
  rcases hv.cases with hv | ⟨s, p, parts, slots', rfl, hp, ho, -, -⟩
  · cases o <;> cases hv <;> rfl
  · rw [Compare.numberOf, read_eq_ok_iff.2 hp]
    cases ho <;> rfl

/-! ## Hashes -/

theorem keyHashWithin_immediate (hv : o.immediate? = some v) (n : Nat) :
    h.keyHashWithin n v = .ok o.keyHash := by
  cases o <;> cases hv <;> cases n <;> rfl

theorem ofPayload_of_describes {hash : Value → Except Fault (Option UInt64)} {s : Slot}
    {p : Payload} {parts : List Object} {r : Option UInt64} (ho : p.Describes levels parts o)
    (hparts : ∀ r, KeyHash.all hash p.parts = .ok r → r = Object.keyHashes parts)
    (hr : KeyHash.ofPayload hash s p = .ok r) : r = o.keyHash := by
  cases ho with
  | tuple items os =>
    simp only [KeyHash.ofPayload] at hr
    cases hall : KeyHash.all hash items with
    | error f => simp [hall, Except.map] at hr
    | ok words =>
      rw [hall] at hr
      rw [Object.keyHash, ← hparts words hall]
      exact (Except.ok.inj hr).symm
  | range p =>
    rw [Object.keyHash, Progression.make?_of_ne p.step_ne]
    exact (Except.ok.inj hr).symm
  | _ => exact (Except.ok.inj hr).symm

/-- Hashes are taken of one value after the other. -/
theorem keyHashes_cons {n : Nat} {r : Option (List UInt64)}
    (hv : ∀ r, h.keyHashWithin n v = .ok r → r = o.keyHash)
    (hvs : ∀ r, KeyHash.all (h.keyHashWithin n) vs = .ok r → r = Object.keyHashes os)
    (hr : KeyHash.all (h.keyHashWithin n) (v :: vs) = .ok r) : r = Object.keyHashes (o :: os) := by
  rw [KeyHash.all] at hr
  rw [Object.keyHashes]
  cases hword : h.keyHashWithin n v with
  | error f => simp [hword] at hr
  | ok word =>
    rw [← hv word hword]
    rw [hword] at hr
    cases word with
    | none => exact (Except.ok.inj hr).symm
    | some word =>
      cases hwords : KeyHash.all (h.keyHashWithin n) vs with
      | error f => simp [hwords, Except.map] at hr
      | ok words =>
        rw [hwords] at hr
        simp only
        rw [← hvs words hwords]
        exact (Except.ok.inj hr).symm

theorem Spells.keyHashes {n : Nat} {r : Option (List UInt64)} (hs : h.Spells levels vs os slots)
    (hr : KeyHash.all (h.keyHashWithin n) vs = .ok r) : r = Object.keyHashes os := by
  induction hs generalizing n r with
  | nil => exact (Except.ok.inj hr).symm
  | immediate hv _ ih =>
    refine keyHashes_cons (fun r hr => ?_) (fun r => ih) hr
    rw [keyHashWithin_immediate hv] at hr
    exact (Except.ok.inj hr).symm
  | contents hp ho _ _ ihparts ih =>
    refine keyHashes_cons (fun r hr => ?_) (fun r => ih) hr
    cases n with
    | zero => cases hr
    | succ n =>
      rw [keyHashWithin, read_eq_ok_iff.2 hp] at hr
      exact ofPayload_of_describes ho (fun r => ihparts) hr

/-- **The hash of a value is that of the object that it spells.** -/
theorem Spells.hash_eq {n : Nat} {r : Option UInt64} (hv : h.Spells levels [v] [o] slots)
    (hr : h.keyHashWithin n v = .ok r) : r = o.keyHash := by
  rcases hv.cases with hv | ⟨s, p, parts, slots', rfl, hp, ho, hparts, -⟩
  · rw [keyHashWithin_immediate hv] at hr
    exact (Except.ok.inj hr).symm
  · cases n with
    | zero => cases hr
    | succ n =>
      rw [keyHashWithin, read_eq_ok_iff.2 hp] at hr
      exact ofPayload_of_describes ho (fun r => hparts.keyHashes) hr

end Heap

/-! ## Comparing -/

namespace Object

/-- Keys of the same kind that are compared by a rule of that kind. -/
inductive SameKind : Object → Object → Prop
  | str (s t : String) : SameKind (str s) (str t)
  | bytes (s t : List UInt8) : SameKind (bytes s) (bytes t)
  | range (a b c d e f : Int64) : SameKind (range a b c) (range d e f)
  | tuple (xs ys : List Object) : SameKind (tuple xs) (tuple ys)

variable {x y : Object}

/-- What is neither two numbers nor two keys of the same kind is equal to itself only. -/
theorem plainEqual_eq_identical (hnum : ∀ m n, x.number? = some m → y.number? ≠ some n)
    (hkind : ¬x.SameKind y) : plainEqual x y = identical x y := by
  unfold plainEqual
  split
  · exact absurd ‹_› (hnum _ _ ‹_›)
  · split
    · exact absurd (.str _ _) hkind
    · exact absurd (.bytes _ _) hkind
    · exact absurd (.range _ _ _ _ _ _) hkind
    · rfl

theorem plainEqual_of_numbers {m n : Number} (hm : x.number? = some m) (hn : y.number? = some n) :
    plainEqual x y = m.equal n := by
  unfold plainEqual
  rw [hm, hn]

theorem isSome_keyHashes_cons {xs : List Object} (hx : (keyHashes (x :: xs)).isSome) :
    x.keyHash.isSome ∧ (keyHashes xs).isSome := by
  rw [keyHashes] at hx
  split at hx
  · next word hword =>
    rw [hword]
    exact ⟨rfl, by simpa using hx⟩
  · cases hx

end Object

namespace Compare

variable {h : Heap} {levels n : Nat} {mode : Mode} {a b : Value} {x y : Object}
  {slots slots' : Multiset Slot} {judge : Judge} {judge' : Object → Object → Option Bool}

/-- Values that have no slot in common are identical if their objects are. -/
theorem isIdentical_eq (ha : h.Spells levels [a] [x] slots) (hb : h.Spells levels [b] [y] slots')
    (hdisjoint : Disjoint slots slots') : a.isIdentical b = x.identical y := by
  rw [Object.identical]
  rcases ha.cases with hx | ⟨s, p, _, _, rfl, -, hp, -, rfl⟩
  · rcases hb.cases with hy | ⟨t, q, _, _, rfl, -, hq, -, rfl⟩
    · rw [hx, hy]
    · rw [hx, Heap.immediate?_of_describes hq]
      refine Value.isIdentical_eq_false fun heq => ?_
      subst heq
      cases Heap.slot?_of_immediate hx
  · rw [Heap.immediate?_of_describes hp]
    refine Value.isIdentical_eq_false ?_
    rcases hb.cases with hy | ⟨t, q, _, _, rfl, -, hq, -, rfl⟩
    · rintro rfl
      cases Heap.slot?_of_immediate hy
    · intro heq
      obtain rfl := Value.ref.inj heq
      exact Multiset.disjoint_left.1 hdisjoint (Multiset.mem_cons_self s _)
        (Multiset.mem_cons_self s _)

/-- A judge of values finds out what a judge of objects does, about keys that have no slot in
common. -/
def Finds (h : Heap) (levels : Nat) (judge : Judge) (judge' : Object → Object → Option Bool) :
    Prop :=
  ∀ {a b : Value} {x y : Object} {slots slots' : Multiset Slot}, h.Spells levels [a] [x] slots →
    h.Spells levels [b] [y] slots' → Disjoint slots slots' → x.keyHash.isSome →
    y.keyHash.isSome → ∀ r, (judge a b .eq).result = .ok r ↔ judge' x y = some r

theorem sameOrEqual_iff (hj : Finds h levels judge judge') (ha : h.Spells levels [a] [x] slots)
    (hb : h.Spells levels [b] [y] slots') (hdisjoint : Disjoint slots slots')
    (hx : x.keyHash.isSome) (hy : y.keyHash.isSome) (r : Bool) :
    (sameOrEqual judge a b).result = .ok r ↔ Object.orIdentical judge' x y = some r := by
  rw [sameOrEqual, Object.orIdentical, isIdentical_eq ha hb hdisjoint]
  split
  · rw [Answer.result_pure, Except.ok.injEq, Option.some_inj]
  · exact hj ha hb hdisjoint hx hy r

theorem itemByItem_iff (hj : Finds h levels judge judge') {vs ws : List Value}
    {xs ys : List Object} (hv : h.Spells levels vs xs slots) (hw : h.Spells levels ws ys slots')
    (hlen : vs.length = ws.length) (hdisjoint : Disjoint slots slots')
    (hx : (Object.keyHashes xs).isSome) (hy : (Object.keyHashes ys).isSome) (r : Bool) :
    (itemByItem judge .eq vs ws).result = .ok r ↔ Object.equalItemsBy judge' xs ys = some r := by
  induction vs generalizing ws xs ys slots slots' with
  | nil =>
    obtain rfl := List.length_eq_zero_iff.1 hlen.symm
    obtain rfl := List.length_eq_zero_iff.1 hv.length_eq.symm
    rw [itemByItem_end (Or.inl rfl), Answer.result_pure, Object.equalItemsBy, Except.ok.injEq,
      Option.some_inj]
    · rfl
    · simp
  | cons v vs ih =>
    obtain ⟨w, ws, rfl⟩ := List.exists_cons_of_length_eq_add_one hlen.symm
    obtain ⟨x, xs, s, t, rfl, rfl, hvx, hvs⟩ := hv.uncons
    obtain ⟨y, ys, s', t', rfl, rfl, hwy, hws⟩ := hw.uncons
    obtain ⟨hx, hxs⟩ := Object.isSome_keyHashes_cons hx
    obtain ⟨hy, hys⟩ := Object.isSome_keyHashes_cons hy
    have hhead : Disjoint s s' := hdisjoint.mono (Multiset.le_add_right s t)
      (Multiset.le_add_right s' t')
    have htail : Disjoint t t' := hdisjoint.mono (Multiset.le_add_left t s)
      (Multiset.le_add_left t' s')
    rw [itemByItem, Answer.result_bind_eq_ok, Object.equalItemsBy, Option.bind_eq_some_iff]
    refine exists_congr fun same => and_congr (sameOrEqual_iff hj hvx hwy hhead hx hy same) ?_
    cases same with
    | true => exact ih hvs hws (Nat.succ.inj hlen) htail hxs hys
    | false =>
      show (pure false : Answer Bool).result = .ok r ↔ some false = some r
      rw [Answer.result_pure, Except.ok.injEq, Option.some_inj]

theorem sequences_iff (hj : Finds h levels judge judge') {vs ws : List Value}
    {xs ys : List Object} (hv : h.Spells levels vs xs slots) (hw : h.Spells levels ws ys slots')
    (hdisjoint : Disjoint slots slots') (hx : (Object.keyHashes xs).isSome)
    (hy : (Object.keyHashes ys).isSome) (r : Bool) :
    (sequences judge .eq vs ws).result = .ok r ↔
      (if xs.length = ys.length then Object.equalItemsBy judge' xs ys else some false) =
        some r := by
  rw [sequences, ← hv.length_eq, ← hw.length_eq]
  by_cases hlen : vs.length = ws.length
  · rw [if_neg (by simp [hlen]), if_pos hlen]
    exact itemByItem_iff hj hv hw hlen hdisjoint hx hy r
  · rw [if_pos ⟨hlen, rfl⟩, if_neg hlen, Answer.result_pure, Except.ok.injEq, Option.some_inj]
    rfl

theorem holds_compare {α : Type} [Ord α] [BEq α] [LawfulBEq α] [Std.LawfulEqOrd α] (u w : α) :
    Operator.eq.holds (compare u w) = (u == w) := by
  rw [Bool.eq_iff_iff, Operator.holds, beq_iff_eq, beq_iff_eq, Std.compare_eq_iff_eq]

/-- One level for two keys of the same kind. -/
theorem dispatch_sameKind (hj : Finds h levels judge (Object.equalWithin n))
    (ha : h.Spells levels [a] [x] slots) (hb : h.Spells levels [b] [y] slots')
    (hdisjoint : Disjoint slots slots') (hx : x.keyHash.isSome) (hy : y.keyHash.isSome)
    (hkind : x.SameKind y) (r : Bool) :
    (dispatch h mode n judge a b .eq).result = .ok r ↔
      Object.equalWithin (n + 1) x y = some r := by
  have hslots {o : Object} (ho : x = o ∨ y = o) : o.immediate? = none := by
    cases hkind <;> rcases ho with rfl | rfl <;> rfl
  obtain ⟨s, p, parts, inner, rfl, hp, hdesc, hparts, rfl⟩ :=
    ha.contents_of_none (hslots (.inl rfl))
  obtain ⟨t, q, parts', inner', rfl, hq, hdesc', hparts', rfl⟩ :=
    hb.contents_of_none (hslots (.inr rfl))
  have hleaf {z : Bool} (hpq : p.SameKind q) (hrule : payloadRule judge .eq p q = pure (some z))
      (hz : Object.equalWithin (n + 1) x y = some z) :
      (dispatch h mode n judge (.ref s) (.ref t) .eq).result = .ok r ↔
        Object.equalWithin (n + 1) x y = some r := by
    rw [dispatch_eq_contents (x := pure z) hp hq hpq (by rw [hrule, map_pure]), hz,
      Answer.result_pure, Except.ok.injEq, Option.some_inj]
  cases hkind with
  | str u w =>
    cases hdesc
    cases hdesc'
    exact hleaf (.str u w) rfl (congrArg some (holds_compare u w).symm)
  | bytes u w =>
    cases hdesc
    cases hdesc'
    exact hleaf (.bytes u w) rfl (congrArg some (holds_compare u w).symm)
  | range =>
    cases hdesc with
    | range p =>
      cases hdesc' with
      | range q =>
        refine hleaf (.range p q) rfl (congrArg some ?_)
        unfold Object.plainEqual
        simp only [Object.number?, Progression.make?_of_ne p.step_ne,
          Progression.make?_of_ne q.step_ne]
        rfl
  | tuple xs ys =>
    cases hdesc with
    | tuple vs =>
      cases hdesc' with
      | tuple ws =>
        rw [Object.keyHash, Option.isSome_map] at hx hy
        rw [dispatch_eq_contents hp hq (.tuple vs ws) rfl]
        refine sequences_iff hj hparts hparts' ?_ hx hy r
        exact hdisjoint.mono (Multiset.le_cons_self inner s) (Multiset.le_cons_self inner' t)

/-- One level finds out what one level does for objects, if the level below does. -/
theorem dispatch_finds (hj : Finds h levels judge (Object.equalWithin n)) :
    Finds h levels (dispatch h mode n judge) (Object.equalWithin (n + 1)) := by
  intro a b x y slots slots' ha hb hdisjoint hx hy r
  obtain ⟨first, hfirst⟩ := ha.typeOf
  obtain ⟨second, hsecond⟩ := hb.typeOf
  by_cases hnum : ∃ k l, x.number? = some k ∧ y.number? = some l
  · obtain ⟨k, l, hk, hl⟩ := hnum
    have hplain : ∀ xs ys, x = .tuple xs → y ≠ .tuple ys := by
      rintro xs ys rfl
      cases hk
    rw [dispatch_eq_numbers (hk ▸ ha.numberOf) (hl ▸ hb.numberOf),
      Object.equalWithin_succ_of_plain hplain, Object.plainEqual_of_numbers hk hl, Except.ok.injEq,
      Option.some_inj]
  have hnum : ∀ k l, x.number? = some k → y.number? ≠ some l := fun k l hk hl =>
    hnum ⟨k, l, hk, hl⟩
  by_cases hkind : x.SameKind y
  · exact dispatch_sameKind hj ha hb hdisjoint hx hy hkind r
  have hunruled : Unruled h a b := by
    refine ⟨fun k l hk hl => ?_, ?_⟩
    · rw [ha.numberOf] at hk
      rw [hb.numberOf] at hl
      exact hnum k l (Except.ok.inj hk) (Except.ok.inj hl)
    · rintro s t p q rfl rfl hp hq hpq
      obtain ⟨_, _, hdesc, -, -⟩ := ha.contents_of_ref hp
      obtain ⟨_, _, hdesc', -, -⟩ := hb.contents_of_ref hq
      -- contents that can change have no hash, so the kinds that are left are those of keys
      cases hpq <;> cases hdesc <;> first
        | (cases hx; done)
        | (cases hdesc'; exact hkind (by constructor))
  rw [dispatch_eq_unruled hunruled hfirst hsecond, isIdentical_eq ha hb hdisjoint,
    Object.equalWithin_succ_of_plain, Object.plainEqual_eq_identical hnum hkind, Except.ok.injEq,
    Option.some_inj]
  rintro xs ys rfl rfl
  exact hkind (.tuple xs ys)

theorem isInt_iff (ha : h.Spells levels [a] [x] slots) : x.isInt = true ↔ ∃ k, a = .int k := by
  rcases ha.cases with hv | ⟨s, p, _, _, rfl, -, hp, -, -⟩
  · cases x <;> cases hv <;> simp [Object.isInt]
  · cases hp <;> simp [Object.isInt]

/-- Two machine integers are compared on the spot. -/
theorem unlessInts_iff (ha : h.Spells levels [a] [x] slots) (hb : h.Spells levels [b] [y] slots')
    (r : Bool) :
    (unlessInts judge a b .eq).result = .ok r ↔
      if x.isInt && y.isInt then some (Object.plainEqual x y) = some r
      else (judge a b .eq).result = .ok r := by
  split
  · next hints =>
    rw [Bool.and_eq_true] at hints
    obtain ⟨k, rfl⟩ := (isInt_iff ha).1 hints.1
    obtain ⟨l, rfl⟩ := (isInt_iff hb).1 hints.2
    have hk := Except.ok.inj ha.numberOf
    have hl := Except.ok.inj hb.numberOf
    rw [Object.plainEqual_of_numbers hk.symm hl.symm, ← Number.holds_eq, Option.some_inj,
      unlessInts, Answer.result_pure, Except.ok.injEq]
    rfl
  · next hints =>
    rw [unlessInts]
    rintro k l rfl rfl
    rw [(isInt_iff ha).2 ⟨k, rfl⟩, (isInt_iff hb).2 ⟨l, rfl⟩] at hints
    exact hints rfl

/-- **Rich comparison finds two keys equal or different as their objects are**, in either mode and
within as many levels. -/
theorem within_finds (h : Heap) (levels : Nat) (mode : Mode) (n : Nat) :
    Finds h levels (within h mode n) (Object.equalWithin n) := by
  induction n with
  | zero =>
    intro a b x y slots slots' ha hb _ _ _ r
    rw [within, unlessInts_iff ha hb, Object.equalWithin]
    split
    · rfl
    · exact iff_of_false Answer.result_refuse_ne_ok fun hnone => by cases hnone
  | succ n ih =>
    intro a b x y slots slots' ha hb hdisjoint hx hy r
    rw [within, unlessInts_iff ha hb]
    split
    · next hints =>
      rw [Bool.and_eq_true] at hints
      rw [Object.equalWithin_succ_of_plain]
      rintro xs ys rfl
      exact absurd hints.1 Bool.false_ne_true
    · exact dispatch_finds ih ha hb hdisjoint hx hy r

end Compare

end ValueHeap
