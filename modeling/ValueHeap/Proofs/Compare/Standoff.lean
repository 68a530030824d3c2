import ValueHeap.Proofs.Compare.Verdict

/-!
# The order of two dicts from both sides

The order of dicts asks whether one key or value is below the other or equal to it, and counts
everything else as above.  Two sets neither of which is within the other, or a NaN and a number,
count as above each other then.  Where the comparison of two dicts comes down to such a pair, each
dict is above the other.  Everywhere else the order of two dicts is turned around when they change
places, and it comes out equal if they hold the same.

## What is here

* `Compare.Undecided` and `Compare.Tied` — values each of which counts as above the other, or as
  equal to it.
* `Compare.EntryOrdered` and `Compare.UndecidedEntries` — the same for entries, by their keys and
  then by their values.
* `Compare.DictOrdered` and `Compare.Standoff` — how the order of two dicts comes about, and two
  dicts each of which is above the other.
* `Compare.DictOrdered.swap` — the order of two dicts from both sides.
* `Compare.DictOrdered.eq_iff` — it comes out equal if the dicts hold the same.
-/

set_option autoImplicit false

namespace ValueHeap

open Filter Std

namespace Compare

variable {h : Heap} {judge : Judge} {a b : Value}

/-! ## The order of two values -/

/-- Each of two values counts as above the other. -/
def Undecided (judge : Judge) (a b : Value) : Prop :=
  (valueOrder judge a b).result = .ok .gt ∧ (valueOrder judge b a).result = .ok .gt

/-- Two values count as equal. -/
def Tied (judge : Judge) (a b : Value) : Prop :=
  (valueOrder judge a b).result = .ok .eq ∧ (valueOrder judge b a).result = .ok .eq

theorem Undecided.symm (hab : Undecided judge a b) : Undecided judge b a := ⟨hab.2, hab.1⟩

theorem Tied.symm (hab : Tied judge a b) : Tied judge b a := ⟨hab.2, hab.1⟩

/-- What the order of two values makes of a verdict on them. -/
theorem valueOrder_of_abides {v : Option Ordering} {o : Ordering} (hv : Abides (judge a b) v)
    (hab : a ≠ b) (hr : (valueOrder judge a b).result = .ok o) : o = v.getD .gt := by
  rw [valueOrder, if_neg (by simp [Value.isIdentical_eq_false hab])] at hr
  obtain ⟨lt, hlt, hr⟩ := Answer.result_bind_eq_ok.1 hr
  have hlt := hv .lt lt hlt
  cases lt with
  | true =>
    rw [if_pos rfl, Answer.result_pure_eq_ok] at hr
    rcases v with _ | _ | _ | _ <;> cases hlt
    exact hr.symm
  | false =>
    rw [if_neg Bool.false_ne_true] at hr
    obtain ⟨eq, heq, hr⟩ := Answer.result_bind_eq_ok.1 hr
    have heq := hv .eq eq heq
    cases eq with
    | true =>
      rw [if_pos rfl, Answer.result_pure_eq_ok] at hr
      rw [Operator.reads_eq_iff.1 heq.symm, ← hr]
      rfl
    | false =>
      rw [if_neg Bool.false_ne_true, Answer.result_pure_eq_ok] at hr
      rcases v with _ | _ | _ | _ <;> first | cases hlt; done | cases heq; done | exact hr.symm

/-- Two values are ordered the other way round in the other direction, or are undecided. -/
theorem valueOrder_swap {clash : Prop} {o o' : Ordering}
    (hb : Balanced (judge a b) (judge b a) clash) (hr : (valueOrder judge a b).result = .ok o)
    (hr' : (valueOrder judge b a).result = .ok o') : o' = o.swap ∨ Undecided judge a b := by
  by_cases hab : a = b
  · subst hab
    rw [valueOrder, if_pos (Value.isIdentical_refl a), Answer.result_pure_eq_ok] at hr hr'
    exact Or.inl (by rw [← hr, ← hr']; rfl)
  · obtain ⟨v, w, hvw⟩ := hb
    have ho := valueOrder_of_abides hvw.left hab hr
    have ho' := valueOrder_of_abides hvw.right (Ne.symm hab) hr'
    subst ho ho'
    rcases hvw.mirror with rfl | ⟨-, rfl, rfl⟩
    · cases v with
      | none => exact Or.inr ⟨hr, hr'⟩
      | some o => exact Or.inl rfl
    · exact Or.inr ⟨hr, hr'⟩

/-- Values that count as equal have the same form. -/
theorem alike_of_valueOrder_eq (hj : EqSound h judge)
    (hr : (valueOrder judge a b).result = .ok .eq) : h.Alike a b := by
  by_cases hab : a = b
  · exact hab ▸ Heap.Alike.refl h a
  rw [valueOrder, if_neg (by simp [Value.isIdentical_eq_false hab])] at hr
  obtain ⟨lt, -, hr⟩ := Answer.result_bind_eq_ok.1 hr
  cases lt with
  | true => cases hr
  | false =>
    obtain ⟨eq, heq, hr⟩ := Answer.result_bind_eq_ok.1 hr
    cases eq with
    | true => exact Heap.settles_eq_true.1 (hj a b true heq hab)
    | false => cases hr

/-! ## The order of two entries -/

/-- Two entries are ordered by their keys, and if these are equal by their values. -/
def EntryOrdered (judge : Judge) (e f : Entry) (o : Ordering) : Prop :=
  ∃ keys, (valueOrder judge e.key.value f.key.value).result = .ok keys ∧
    (keys = .eq → (valueOrder judge e.value f.value).result = .ok o) ∧ (keys ≠ .eq → o = keys)

/-- The keys of two entries are undecided, or are tied over values that are undecided. -/
def UndecidedEntries (judge : Judge) (e f : Entry) : Prop :=
  Undecided judge e.key.value f.key.value ∨
    (Tied judge e.key.value f.key.value ∧ Undecided judge e.value f.value)

theorem UndecidedEntries.symm {e f : Entry} (hef : UndecidedEntries judge e f) :
    UndecidedEntries judge f e :=
  hef.imp Undecided.symm (And.imp Tied.symm Undecided.symm)

theorem EntryOrdered.swap {clashes : Value → Value → Prop} {e f : Entry} {o o' : Ordering}
    (hparts : ∀ u v, Balanced (judge u v) (judge v u) (clashes u v))
    (hef : EntryOrdered judge e f o) (hfe : EntryOrdered judge f e o') :
    o' = o.swap ∨ UndecidedEntries judge e f := by
  obtain ⟨keys, hkeys, hvalues, hrest⟩ := hef
  obtain ⟨keys', hkeys', hvalues', hrest'⟩ := hfe
  rcases valueOrder_swap (hparts _ _) hkeys hkeys' with rfl | hundecided
  · by_cases heq : keys = .eq
    · -- tied keys leave it to the values
      subst heq
      exact (valueOrder_swap (hparts _ _) (hvalues rfl) (hvalues' rfl)).imp_right
        fun hvalue => Or.inr ⟨⟨hkeys, hkeys'⟩, hvalue⟩
    · rw [hrest heq, hrest' (by cases keys <;> first | exact absurd rfl heq | decide)]
      exact Or.inl rfl
  · exact Or.inr (Or.inl hundecided)

/-- Of two undecided entries the one on the left is above the other. -/
theorem UndecidedEntries.order {e f : Entry} {o : Ordering} (hef : UndecidedEntries judge e f)
    (ho : EntryOrdered judge e f o) : o = .gt := by
  obtain ⟨keys, hkeys, hvalues, hrest⟩ := ho
  rcases hef with hkey | ⟨hkey, hvalue⟩
  · obtain rfl := Except.ok.inj (hkey.1.symm.trans hkeys)
    exact hrest nofun
  · obtain rfl := Except.ok.inj (hkey.1.symm.trans hkeys)
    exact Except.ok.inj ((hvalues rfl).symm.trans hvalue.1)

/-! ## The order of two dicts -/

/-- Each of two dicts differs from the other, first at these entries. -/
def Differ (judge : Judge) (x y : List Entry) (e f : Entry) : Prop :=
  (smallestDifference judge x y).result = .ok (some e) ∧
    (smallestDifference judge y x).result = .ok (some f)

/-- Two dicts of the same length that differ first at undecided entries. -/
def Standoff (judge : Judge) (x y : List Entry) : Prop :=
  x.length = y.length ∧ ∃ e f, Differ judge x y e f ∧ UndecidedEntries judge e f

/-- How the order of two dicts comes about. -/
inductive DictOrdered (judge : Judge) (x y : List Entry) : Ordering → Prop
  | length (hlen : x.length ≠ y.length) : DictOrdered judge x y (compare x.length y.length)
  | same (hlen : x.length = y.length)
      (hnone : (smallestDifference judge x y).result = .ok none ∨
        (smallestDifference judge y x).result = .ok none) : DictOrdered judge x y .eq
  | differ {e f : Entry} {o : Ordering} (hlen : x.length = y.length)
      (hdiffer : Differ judge x y e f) (ho : EntryOrdered judge e f o) : DictOrdered judge x y o

section Dicts

variable {x y : List Entry} {e f : Entry} {o o' : Ordering}

theorem Differ.symm (hxy : Differ judge x y e f) : Differ judge y x f e := ⟨hxy.2, hxy.1⟩

theorem Differ.unique {e' f' : Entry} (hxy : Differ judge x y e f)
    (hxy' : Differ judge x y e' f') : e = e' ∧ f = f' :=
  ⟨Option.some.inj (Except.ok.inj (hxy.1.symm.trans hxy'.1)),
    Option.some.inj (Except.ok.inj (hxy.2.symm.trans hxy'.2))⟩

theorem not_differ (hnone : (smallestDifference judge x y).result = .ok none ∨
    (smallestDifference judge y x).result = .ok none) : ¬Differ judge x y e f := by
  rintro ⟨he, hf⟩
  rcases hnone with hnone | hnone
  · cases hnone.symm.trans he
  · cases hnone.symm.trans hf

theorem Standoff.symm (hxy : Standoff judge x y) : Standoff judge y x := by
  obtain ⟨hlen, e, f, hdiffer, hundecided⟩ := hxy
  exact ⟨hlen.symm, f, e, hdiffer.symm, hundecided.symm⟩

theorem dictOrder_cases (hr : (dictOrder judge x y).result = .ok o) : DictOrdered judge x y o := by
  rw [dictOrder] at hr
  split at hr
  · next hlen =>
    rw [Answer.result_pure_eq_ok] at hr
    exact hr ▸ .length hlen
  · next hlen =>
    rw [Decidable.not_not] at hlen
    obtain ⟨first, he, hr⟩ := Answer.result_bind_eq_ok.1 hr
    cases first with
    | none =>
      rw [Answer.result_pure_eq_ok] at hr
      exact hr ▸ .same hlen (Or.inl he)
    | some e =>
      obtain ⟨second, hf, hr⟩ := Answer.result_bind_eq_ok.1 hr
      cases second with
      | none =>
        rw [Answer.result_pure_eq_ok] at hr
        exact hr ▸ .same hlen (Or.inr hf)
      | some f =>
        obtain ⟨keys, hkeys, hr⟩ := Answer.result_bind_eq_ok.1 hr
        refine .differ hlen ⟨he, hf⟩ ⟨keys, hkeys, ?_, fun hne => ?_⟩
        · rintro rfl
          exact hr
        · cases keys with
          | eq => exact absurd rfl hne
          | _ => exact (Answer.result_pure_eq_ok.1 hr).symm

/-- In a standoff the dict on the left is above the other. -/
theorem Standoff.order (hs : Standoff judge x y) (hxy : DictOrdered judge x y o) : o = .gt := by
  obtain ⟨hlen, e, f, hdiffer, hundecided⟩ := hs
  cases hxy with
  | length hne => exact absurd hlen hne
  | same _ hnone => exact absurd hdiffer (not_differ hnone)
  | differ _ hdiffer' ho =>
    obtain ⟨rfl, rfl⟩ := hdiffer.unique hdiffer'
    exact hundecided.order ho

/-- **The order of two dicts is turned around in the other direction, but for a standoff.** -/
theorem DictOrdered.swap {clashes : Value → Value → Prop}
    (hparts : ∀ u v, Balanced (judge u v) (judge v u) (clashes u v))
    (hxy : DictOrdered judge x y o) (hyx : DictOrdered judge y x o') :
    o' = o.swap ∨ (Standoff judge x y ∧ o = .gt ∧ o' = .gt) := by
  have hstandoff (hs : Standoff judge x y) : Standoff judge x y ∧ o = .gt ∧ o' = .gt :=
    ⟨hs, hs.order hxy, hs.symm.order hyx⟩
  cases hxy with
  | length hne =>
    cases hyx with
    | length => exact Or.inl OrientedOrd.eq_swap
    | same hlen => exact absurd hlen.symm hne
    | differ hlen => exact absurd hlen.symm hne
  | same hlen hnone =>
    cases hyx with
    | length hne => exact absurd hlen.symm hne
    | same => exact Or.inl rfl
    | differ _ hdiffer => exact absurd hdiffer.symm (not_differ hnone)
  | differ hlen hdiffer ho =>
    cases hyx with
    | length hne => exact absurd hlen.symm hne
    | same _ hnone => exact absurd hdiffer.symm (not_differ hnone)
    | differ _ hdiffer' ho' =>
      obtain ⟨rfl, rfl⟩ := hdiffer.unique hdiffer'.symm
      exact (ho.swap hparts ho').imp_right
        fun hundecided => hstandoff ⟨hlen, _, _, hdiffer, hundecided⟩

end Dicts

end Compare

/-! ## Dicts that hold the same -/

/-- Two dicts hold entries of the same forms. -/
def Heap.SameEntries (h : Heap) (x y : List Entry) : Prop :=
  ∀ᶠ n in atTop, (x.map (h.entryForm n)).Perm (y.map (h.entryForm n))

theorem Heap.SameEntries.comm {h : Heap} {x y : List Entry} :
    h.SameEntries x y ↔ h.SameEntries y x :=
  eventually_congr (Eventually.of_forall fun _ => List.perm_comm)

theorem Heap.SameEntries.length_eq {h : Heap} {x y : List Entry} (hxy : h.SameEntries x y) :
    x.length = y.length := by
  obtain ⟨n, hn⟩ := hxy.exists
  simpa using hn.length_eq

namespace Compare

variable {h : Heap} {judge : Judge}

theorem dictsEqual_iff {x y : List Entry} {r : Bool} (hj : EqSound h judge)
    (hx : h.KeysFit (x.map Entry.key)) (hy : h.KeysFit (y.map Entry.key))
    (hr : (dictsEqual judge x y).result = .ok r) : r = true ↔ h.SameEntries x y :=
  eq_true_iff_eventually (dictsEqual_settles hj hx hy hr)

/-- A search that ends without an entry has found every entry in the other dict. -/
theorem smallestFrom_none {other rest : List Entry} {best : Option Entry} (hj : EqSound h judge)
    (hhash : ∀ e ∈ rest, h.Hashes e.key.value e.key.hash) (ho : h.KeysFit (other.map Entry.key))
    (hr : (smallestFrom judge other best rest).result = .ok none) :
    best = none ∧ ∀ e ∈ rest, ∀ᶠ n in atTop, h.entryForm n e ∈ other.map (h.entryForm n) := by
  induction rest generalizing best with
  | nil =>
    rw [smallestFrom, Answer.result_pure_eq_ok] at hr
    exact ⟨hr, List.forall_mem_nil _⟩
  | cons e rest ih =>
    obtain ⟨below, better, hbelow, hlook, -, hr⟩ := smallestFrom_cons hr
    obtain ⟨hbest, hrest⟩ := ih (fun f hf => hhash f (List.mem_cons_of_mem e hf)) hr
    cases better with
    | true => cases hbest
    | false =>
      rw [if_neg Bool.false_ne_true] at hbest
      subst hbest
      refine ⟨rfl, List.forall_mem_cons.2 ⟨?_, hrest⟩⟩
      filter_upwards [differs_settles hj (hhash e List.mem_cons_self) ho (hlook hbelow)] with n hn
      exact not_not.1 (mt hn.2 Bool.false_ne_true)

/-- A search that ends with an entry has found that it differs. -/
theorem smallestFrom_differs {other rest : List Entry} {best : Option Entry} {e : Entry}
    (hj : EqSound h judge) (hhash : ∀ e ∈ rest, h.Hashes e.key.value e.key.hash)
    (ho : h.KeysFit (other.map Entry.key))
    (hbest : best = some e → ∀ᶠ n in atTop, h.entryForm n e ∉ other.map (h.entryForm n))
    (hr : (smallestFrom judge other best rest).result = .ok (some e)) :
    ∀ᶠ n in atTop, h.entryForm n e ∉ other.map (h.entryForm n) := by
  induction rest generalizing best with
  | nil =>
    rw [smallestFrom, Answer.result_pure_eq_ok] at hr
    exact hbest hr
  | cons f rest ih =>
    obtain ⟨below, better, -, hlook, hskip, hr⟩ := smallestFrom_cons hr
    refine ih (fun g hg => hhash g (List.mem_cons_of_mem f hg)) (fun heq => ?_) hr
    cases better with
    | false => exact hbest heq
    | true =>
      cases heq
      have hlook := hlook (Bool.eq_true_of_not_eq_false fun hf => Bool.noConfusion (hskip hf))
      filter_upwards [differs_settles hj (hhash e List.mem_cons_self) ho hlook] with n hn
      exact hn.1 rfl

section SameEntries

variable {x y : List Entry} (hj : EqSound h judge) (hx : h.KeysFit (x.map Entry.key))
  (hy : h.KeysFit (y.map Entry.key))

include hj hx hy

theorem sameEntries_of_smallestDifference_none (hlen : x.length = y.length)
    (hr : (smallestDifference judge x y).result = .ok none) : h.SameEntries x y := by
  have hwithin := (smallestFrom_none hj (fun e he => hx.hashes _ (List.mem_map_of_mem he)) hy hr).2
  filter_upwards [eventually_forall_mem hwithin, hx.eventually_nodup_entries] with n hn hnodup
  refine (perm_iff_subset_of_nodup hnodup (by simpa using hlen)).2 fun z hz => ?_
  obtain ⟨e, he, rfl⟩ := List.mem_map.1 hz
  exact hn e he

/-- A smallest difference is in the one dict and not in the other. -/
theorem smallestDifference_some {e : Entry}
    (hr : (smallestDifference judge x y).result = .ok (some e)) :
    e ∈ x ∧ ∀ᶠ n in atTop, h.entryForm n e ∉ y.map (h.entryForm n) := by
  refine ⟨(smallestFrom_mem hr rfl).resolve_left nofun, ?_⟩
  have hhash : ∀ f ∈ x, h.Hashes f.key.value f.key.hash := fun f hf =>
    hx.hashes _ (List.mem_map_of_mem hf)
  exact smallestFrom_differs hj hhash hy (fun hnone => by cases hnone) hr

theorem not_sameEntries {e : Entry} (hr : (smallestDifference judge x y).result = .ok (some e)) :
    ¬h.SameEntries x y := by
  intro hxy
  obtain ⟨hmem, hdiffers⟩ := smallestDifference_some hj hx hy hr
  obtain ⟨n, hn, hperm⟩ := (hdiffers.and hxy).exists
  exact hn (hperm.subset (List.mem_map_of_mem hmem))

/-- The order of two dicts comes out equal if they hold the same. -/
theorem DictOrdered.eq_iff {o : Ordering} (hxy : DictOrdered judge x y o) :
    o = .eq ↔ h.SameEntries x y := by
  cases hxy with
  | length hlen =>
    exact iff_of_false (fun heq => hlen (LawfulEqCmp.eq_of_compare heq))
      fun hsame => hlen hsame.length_eq
  | same hlen hnone =>
    refine iff_of_true rfl ?_
    rcases hnone with hnone | hnone
    · exact sameEntries_of_smallestDifference_none hj hx hy hlen hnone
    · exact Heap.SameEntries.comm.1
        (sameEntries_of_smallestDifference_none hj hy hx hlen.symm hnone)
  | @differ e f _ hlen hdiffer ho =>
    refine iff_of_false ?_ (not_sameEntries hj hx hy hdiffer.1)
    rintro rfl
    -- the two entries would be alike, but the first one is not in the second dict
    obtain ⟨keys, hkeys, hvalues, hrest⟩ := ho
    obtain rfl : keys = .eq := by_contra fun hne => hne (hrest hne).symm
    have hkey := alike_of_valueOrder_eq hj hkeys
    have hvalue := alike_of_valueOrder_eq hj (hvalues rfl)
    have hmem := (smallestDifference_some hj hy hx hdiffer.2).1
    obtain ⟨n, hk, hv, hn⟩ :=
      (hkey.and (hvalue.and (smallestDifference_some hj hx hy hdiffer.1).2)).exists
    exact hn (List.mem_map.2 ⟨f, hmem, Form.pair_inj.2 ⟨hk.symm, hv.symm⟩⟩)

end SameEntries

end Compare

end ValueHeap
