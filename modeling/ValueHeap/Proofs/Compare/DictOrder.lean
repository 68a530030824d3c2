import ValueHeap.Proofs.Compare.Equality

/-!
# The order of dicts

In total mode two dicts of the same length are compared by the smallest key that one of them has and
the other lacks, or has another value under.  That is how their sorted entries compare: below the
smallest entry that only one of two sorted lists holds, they hold the same entries.

## What is here

* `Form.LeastMissing` — the smallest form of one list that another lacks, and
  `Form.compare_sort_of_leastMissing`, the comparison of sorted lists by it.
* `Compare.OrderSound` — a judge that is right about some values under every operator.
* `Compare.smallestDifference_settles` — what the search for the smallest key finds.
* `Compare.dictOrder_settles` — two dicts compare as their sorted entries do.
-/

set_option autoImplicit false

namespace ValueHeap

open Filter Std

/-! ## Sorted lists and what only one of them holds -/

namespace Form

/-- The smallest form of the first list that the second one lacks. -/
structure LeastMissing (xs ys : List Form) (x : Form) : Prop where
  mem : x ∈ xs
  missing : x ∉ ys
  least : ∀ z ∈ xs, z ∉ ys → (compare x z).isLE = true

theorem LeastMissing.perm {xs ys xs' ys' : List Form} {x : Form} (h : LeastMissing xs ys x)
    (hx : xs.Perm xs') (hy : ys.Perm ys') : LeastMissing xs' ys' x where
  mem := hx.subset h.mem
  missing hmem := h.missing (hy.symm.subset hmem)
  least z hz hzy := h.least z (hx.symm.subset hz) fun hmem => hzy (hy.subset hmem)

theorem lt_of_mem_cons {x y z : Form} {ys : List Form} (hy : ∀ w ∈ ys, compare y w = .lt)
    (hxy : compare x y = .lt) (hz : z ∈ y :: ys) : compare x z = .lt := by
  rcases List.mem_cons.1 hz with rfl | hmem
  · exact hxy
  · exact TransCmp.lt_trans hxy (hy z hmem)

/-- The head of a strictly sorted list is missing from another one with a greater head. -/
theorem LeastMissing.eq_head {x y z : Form} {xs ys : List Form}
    (h : LeastMissing (x :: xs) (y :: ys) z) (hx : ∀ w ∈ xs, compare x w = .lt)
    (hy : ∀ w ∈ ys, compare y w = .lt) (hxy : compare x y = .lt) : z = x := by
  have hnot : x ∉ y :: ys := by
    intro hmem
    have hlt := lt_of_mem_cons hy hxy hmem
    rw [compare_self] at hlt
    cases hlt
  rcases List.mem_cons.1 h.mem with heq | hmem
  · exact heq
  · have hle := h.least x List.mem_cons_self hnot
    rw [OrientedOrd.eq_swap, hx z hmem] at hle
    cases hle

/-- A head that both lists have can be left out. -/
theorem LeastMissing.tail {x z : Form} {xs ys : List Form}
    (h : LeastMissing (x :: xs) (x :: ys) z) (hx : ∀ w ∈ xs, compare x w = .lt) :
    LeastMissing xs ys z := by
  have hne : z ≠ x := fun heq => h.missing (heq ▸ List.mem_cons_self)
  refine ⟨(List.mem_cons.1 h.mem).resolve_left hne,
    fun hmem => h.missing (List.mem_cons_of_mem x hmem), fun w hw hwy => ?_⟩
  refine h.least w (List.mem_cons_of_mem x hw) fun hmem => ?_
  rcases List.mem_cons.1 hmem with rfl | hmem
  · have hlt := hx w hw
    rw [compare_self] at hlt
    cases hlt
  · exact hwy hmem

/-- Strictly sorted lists of the same length compare as the smallest forms that only one of them
holds. -/
theorem compare_of_leastMissing {xs ys : List Form} {p q : Form}
    (hx : xs.Pairwise fun x y => compare x y = .lt) (hy : ys.Pairwise fun x y => compare x y = .lt)
    (hlen : xs.length = ys.length) (hp : LeastMissing xs ys p) (hq : LeastMissing ys xs q) :
    compare xs ys = compare p q := by
  induction xs generalizing ys with
  | nil => exact absurd hp.mem List.not_mem_nil
  | cons x xs ih =>
    cases ys with
    | nil => exact absurd hq.mem List.not_mem_nil
    | cons y ys =>
      rw [List.pairwise_cons] at hx hy
      rw [List.compare_cons_cons]
      cases hc : compare x y with
      | lt =>
        rw [hp.eq_head hx.1 hy.1 hc, lt_of_mem_cons hy.1 hc hq.mem]
        rfl
      | gt =>
        have hc' : compare y x = .lt := by rw [OrientedOrd.eq_swap, hc]; rfl
        rw [hq.eq_head hy.1 hx.1 hc', OrientedOrd.eq_swap (a := p),
          lt_of_mem_cons hx.1 hc' hp.mem]
        rfl
      | eq =>
        obtain rfl := LawfulEqCmp.eq_of_compare hc
        rw [Ordering.eq_then]
        exact ih hx.2 hy.2 (by simpa using hlen) (hp.tail hx.1) (hq.tail hy.1)

theorem sort_pairwise_lt {xs : List Form} (hx : xs.Nodup) :
    (sort xs).Pairwise fun x y => compare x y = .lt := by
  have hnodup : (sort xs).Nodup := (sort_perm xs).nodup_iff.2 hx
  refine ((sort_pairwise xs).and hnodup).imp ?_
  rintro x y ⟨hle, hne⟩
  cases hc : compare x y with
  | lt => rfl
  | eq => exact absurd (LawfulEqCmp.eq_of_compare hc) hne
  | gt =>
    rw [hc] at hle
    cases hle

/-- **Sorted lists of the same length compare as the smallest forms that only one of them
holds.** -/
theorem compare_sort_of_leastMissing {xs ys : List Form} {p q : Form} (hx : xs.Nodup)
    (hy : ys.Nodup) (hlen : xs.length = ys.length) (hp : LeastMissing xs ys p)
    (hq : LeastMissing ys xs q) : compare (sort xs) (sort ys) = compare p q := by
  have hpx := (sort_perm xs).symm
  have hpy := (sort_perm ys).symm
  exact compare_of_leastMissing (sort_pairwise_lt hx) (sort_pairwise_lt hy)
    (by rw [← hpx.length_eq, ← hpy.length_eq, hlen]) (hp.perm hpx hpy) (hq.perm hpy hpx)

theorem compare_pair (a b c d : Form) :
    compare (pair a b) (pair c d) = (compare a c).then (compare b d) := by
  rw [pair, pair, compare_node_self, List.compare_cons_cons, List.compare_cons_cons,
    List.compare_nil_nil, Ordering.then_eq]

end Form

namespace Compare

/-- The results of a judge are right for the values that a predicate admits. -/
def OrderSound (h : Heap) (good : Value → Prop) (judge : Judge) : Prop :=
  ∀ a b op r, good a → good b → (judge a b op).result = .ok r → h.Settles op r a b

variable {h : Heap} {good : Value → Prop} {judge : Judge}

/-! ## The smallest difference -/

/-- What is known of the best entry so far: it is the one with the smallest key among those that are
done and differ from the other dict. -/
def Best (h : Heap) (n : Nat) (done other : List Entry) : Option Entry → Prop
  | none => ∀ e ∈ done, h.entryForm n e ∈ other.map (h.entryForm n)
  | some best => best ∈ done ∧ h.entryForm n best ∉ other.map (h.entryForm n) ∧
      ∀ e ∈ done, h.entryForm n e ∉ other.map (h.entryForm n) →
        (compare (h.keyForm n best.key) (h.keyForm n e.key)).isLE = true

/-- One more entry is looked at: it is the best one if its key is below the best one so far, and it
differs. -/
theorem Best.snoc {n : Nat} {done other : List Entry} {best : Option Entry} {e : Entry}
    {below better : Bool}
    (hbelow : below = match best with
      | none => true
      | some current => compare (h.keyForm n e.key) (h.keyForm n current.key) == .lt)
    (hb : Best h n done other best)
    (hbetter : better = (below && decide (h.entryForm n e ∉ other.map (h.entryForm n)))) :
    Best h n (done ++ [e]) other (if better then some e else best) := by
  by_cases hmem : h.entryForm n e ∈ other.map (h.entryForm n)
  · -- the entry is in the other dict
    rw [hbetter, decide_eq_false (not_not_intro hmem), Bool.and_false, if_neg Bool.false_ne_true]
    cases best with
    | none =>
      intro f hf
      rcases List.mem_append.1 hf with hf | hf
      · exact hb f hf
      · rwa [List.mem_singleton.1 hf]
    | some current =>
      refine ⟨List.mem_append_left _ hb.1, hb.2.1, fun f hf hfo => ?_⟩
      rcases List.mem_append.1 hf with hf | hf
      · exact hb.2.2 f hf hfo
      · exact absurd (List.mem_singleton.1 hf ▸ hmem) hfo
  · rw [hbetter, decide_eq_true hmem, Bool.and_true]
    cases best with
    | none =>
      rw [hbelow, if_pos rfl]
      refine ⟨List.mem_append_right _ (List.mem_singleton_self e), hmem, fun f hf hfo => ?_⟩
      rcases List.mem_append.1 hf with hf | hf
      · exact absurd (hb f hf) hfo
      · rw [List.mem_singleton.1 hf, compare_self]
        rfl
    | some current =>
      cases hc : compare (h.keyForm n e.key) (h.keyForm n current.key) with
      | lt =>
        simp only [hc] at hbelow
        rw [hbelow, if_pos (by rfl)]
        refine ⟨List.mem_append_right _ (List.mem_singleton_self e), hmem, fun f hf hfo => ?_⟩
        rcases List.mem_append.1 hf with hf | hf
        · rw [TransCmp.lt_of_lt_of_isLE hc (hb.2.2 f hf hfo)]
          rfl
        · rw [List.mem_singleton.1 hf, compare_self]
          rfl
      | _ =>
        simp only [hc] at hbelow
        rw [hbelow, if_neg (by decide)]
        refine ⟨List.mem_append_left _ hb.1, hb.2.1, fun f hf hfo => ?_⟩
        rcases List.mem_append.1 hf with hf | hf
        · exact hb.2.2 f hf hfo
        · rw [List.mem_singleton.1 hf, OrientedOrd.eq_swap, hc]
          rfl

/-- One step of the search: the key is compared with the best one so far, and the entry is looked
up only if it is below. -/
theorem smallestFrom_cons {other rest : List Entry} {best o : Option Entry} {e : Entry}
    (hr : (smallestFrom judge other best (e :: rest)).result = .ok o) :
    ∃ below better,
      (match best with
        | none => below = true
        | some current => (judge e.key.value current.key.value .lt).result = .ok below) ∧
      (below = true → (differs judge e other).result = .ok better) ∧
      (below = false → better = false) ∧
      (smallestFrom judge other (if better then some e else best) rest).result = .ok o := by
  simp only [smallestFrom] at hr
  have hlookup {below : Bool} (hr : (if below = true then
      differs judge e other >>= fun better =>
        smallestFrom judge other (if better = true then some e else best) rest
      else (pure false : Answer Bool) >>= fun better =>
        smallestFrom judge other (if better = true then some e else best) rest).result = .ok o) :
      ∃ better, (below = true → (differs judge e other).result = .ok better) ∧
        (below = false → better = false) ∧
        (smallestFrom judge other (if better then some e else best) rest).result = .ok o := by
    obtain ⟨better, hbetter, hr⟩ := Answer.result_ite_bind_eq_ok.1 hr
    refine ⟨better, ?_, ?_, hr⟩
    · rintro rfl
      exact hbetter
    · rintro rfl
      exact (Answer.result_pure_eq_ok.1 hbetter).symm
  cases best with
  | none =>
    obtain ⟨below, hbelow, hr⟩ := Answer.result_bind_eq_ok.1 hr
    obtain ⟨better, hr⟩ := hlookup hr
    exact ⟨below, better, (Answer.result_pure_eq_ok.1 hbelow).symm, hr⟩
  | some current =>
    obtain ⟨below, hbelow, hr⟩ := Answer.result_bind_eq_ok.1 hr
    obtain ⟨better, hr⟩ := hlookup hr
    exact ⟨below, better, hbelow, hr⟩

theorem smallestFrom_mem {entries other : List Entry} {best o : Option Entry} {e : Entry}
    (hr : (smallestFrom judge other best entries).result = .ok o) (he : o = some e) :
    best = some e ∨ e ∈ entries := by
  induction entries generalizing best with
  | nil =>
    rw [smallestFrom, Answer.result_pure_eq_ok] at hr
    exact Or.inl (hr.trans he)
  | cons f rest ih =>
    obtain ⟨below, better, -, -, -, hr⟩ := smallestFrom_cons hr
    rcases ih hr with hbest | hmem
    · split at hbest
      · cases hbest
        exact Or.inr List.mem_cons_self
      · exact Or.inl hbest
    · exact Or.inr (List.mem_cons_of_mem f hmem)

theorem smallestFrom_settles {other rest done : List Entry} {best o : Option Entry}
    (hj : EqSound h judge) (ho : OrderSound h good judge)
    (hgood : ∀ e ∈ done ++ rest, good e.key.value)
    (hhash : ∀ e ∈ rest, h.Hashes e.key.value e.key.hash)
    (hother : h.KeysFit (other.map Entry.key))
    (hbest : ∀ᶠ n in atTop, Best h n done other best)
    (hr : (smallestFrom judge other best rest).result = .ok o) :
    ∀ᶠ n in atTop, Best h n (done ++ rest) other o := by
  induction rest generalizing done best with
  | nil =>
    rw [smallestFrom, Answer.result_pure_eq_ok] at hr
    rwa [List.append_nil, ← hr]
  | cons e rest ih =>
    obtain ⟨below, better, hbelow, hlook, hskip, hr⟩ := smallestFrom_cons hr
    have hbelow' : ∀ᶠ n in atTop, below = match best with
        | none => true
        | some current =>
          compare (h.keyForm n e.key) (h.keyForm n current.key) == .lt := by
      cases best with
      | none => exact Eventually.of_forall fun n => hbelow
      | some current =>
        obtain ⟨n, hn⟩ := hbest.exists
        exact ho _ _ _ _ (hgood e (List.mem_append_right _ List.mem_cons_self))
          (hgood current (List.mem_append_left _ hn.1)) hbelow
    have hbetter : ∀ᶠ n in atTop,
        better = (below && decide (h.entryForm n e ∉ other.map (h.entryForm n))) := by
      cases below with
      | false => exact Eventually.of_forall fun n => hskip rfl
      | true =>
        filter_upwards [differs_settles hj (hhash e List.mem_cons_self) hother (hlook rfl)]
          with n hn
        rw [Bool.true_and, Bool.eq_iff_iff, hn, decide_eq_true_iff]
    have hstep : ∀ᶠ n in atTop, Best h n (done ++ [e]) other (if better then some e else best) := by
      filter_upwards [hbest, hbelow', hbetter] with n hb hlt hbet using hb.snoc hlt hbet
    have hsplit : done ++ e :: rest = (done ++ [e]) ++ rest := by simp
    rw [hsplit] at hgood ⊢
    exact ih hgood (fun f hf => hhash f (List.mem_cons_of_mem e hf)) hstep hr

/-- The search finds the entry that sorts first among those that differ. -/
theorem smallestDifference_settles {x y : List Entry} {o : Option Entry} (hj : EqSound h judge)
    (ho : OrderSound h good judge) (hgood : ∀ e ∈ x, good e.key.value)
    (hx : h.KeysFit (x.map Entry.key)) (hy : h.KeysFit (y.map Entry.key))
    (hr : (smallestDifference judge x y).result = .ok o) :
    ∀ᶠ n in atTop, match o with
      | none => x.map (h.entryForm n) ⊆ y.map (h.entryForm n)
      | some e => e ∈ x ∧
        Form.LeastMissing (x.map (h.entryForm n)) (y.map (h.entryForm n)) (h.entryForm n e) := by
  have hhash : ∀ e ∈ x, h.Hashes e.key.value e.key.hash := fun e he =>
    hx.hashes e.key (List.mem_map_of_mem he)
  have hstart : ∀ᶠ n in atTop, Best h n [] y none :=
    Eventually.of_forall fun n e he => absurd he List.not_mem_nil
  have hbest := smallestFrom_settles hj ho hgood hhash hy hstart hr
  filter_upwards [hbest, hx.eventually_unique] with n hn hunique
  cases o with
  | none =>
    intro z hz
    obtain ⟨e, he, rfl⟩ := List.mem_map.1 hz
    exact hn e he
  | some e =>
    refine ⟨hn.1, List.mem_map_of_mem hn.1, hn.2.1, fun z hz hzy => ?_⟩
    obtain ⟨f, hf, rfl⟩ := List.mem_map.1 hz
    have hle := hn.2.2 f hf hzy
    rw [Heap.entryForm, Heap.entryForm, Form.compare_pair]
    cases hc : compare (h.form n e.key.value) (h.form n f.key.value) with
    | lt => rfl
    | gt =>
      rw [Heap.keyForm, Heap.keyForm, hc] at hle
      cases hle
    | eq =>
      -- entries with the same key are the same entry
      rw [hunique e hn.1 f hf (LawfulEqCmp.eq_of_compare hc), compare_self]
      rfl

/-! ## Dicts -/

theorem valueOrder_settles {a b : Value} {o : Ordering} (ho : OrderSound h good judge)
    (ha : good a) (hb : good b) (hr : (valueOrder judge a b).result = .ok o) :
    ∀ᶠ n in atTop, o = compare (h.form n a) (h.form n b) := by
  rw [valueOrder] at hr
  split at hr
  · next hid =>
    rw [Value.isIdentical_iff] at hid
    subst hid
    rw [Answer.result_pure_eq_ok] at hr
    exact Eventually.of_forall fun n => by rw [compare_self, hr]
  · obtain ⟨lt, hlt, hr⟩ := Answer.result_bind_eq_ok.1 hr
    have hlt' := ho a b .lt lt ha hb hlt
    cases lt with
    | true =>
      rw [if_pos rfl, Answer.result_pure_eq_ok] at hr
      filter_upwards [hlt'] with n hn
      rw [← hr]
      exact (beq_iff_eq.1 hn.symm).symm
    | false =>
      rw [if_neg Bool.false_ne_true] at hr
      obtain ⟨eq, heq, hr⟩ := Answer.result_bind_eq_ok.1 hr
      have heq' := ho a b .eq eq ha hb heq
      filter_upwards [hlt', heq'] with n hn hn'
      cases eq with
      | true =>
        rw [if_pos rfl, Answer.result_pure_eq_ok] at hr
        rw [← hr]
        cases hc : compare (h.form n a) (h.form n b) <;> simp [hc, Operator.holds] at hn' ⊢
      | false =>
        rw [if_neg Bool.false_ne_true, Answer.result_pure_eq_ok] at hr
        rw [← hr]
        cases hc : compare (h.form n a) (h.form n b) <;> simp [hc, Operator.holds] at hn hn' ⊢

theorem sort_eq_of_subset {xs ys : List Form} (hx : xs.Nodup) (hlen : xs.length = ys.length)
    (hxy : xs ⊆ ys) : Form.sort xs = Form.sort ys :=
  Form.sort_eq_iff.2 ((perm_iff_subset_of_nodup hx hlen).2 hxy)

/-- Two entries are ordered by their keys, and then by their values. -/
theorem entryOrder_settles {e f : Entry} {o : Ordering} (ho : OrderSound h good judge)
    (he : good e.key.value ∧ good e.value) (hf : good f.key.value ∧ good f.value)
    (hr : (do
        match ← valueOrder judge e.key.value f.key.value with
        | .eq => valueOrder judge e.value f.value
        | keys => pure keys : Answer Ordering).result = .ok o) :
    ∀ᶠ n in atTop, o = compare (h.entryForm n e) (h.entryForm n f) := by
  obtain ⟨keys, hkeys, hr⟩ := Answer.result_bind_eq_ok.1 hr
  have hkeys' := valueOrder_settles ho he.1 hf.1 hkeys
  simp only [Heap.entryForm, Form.compare_pair]
  cases keys with
  | eq =>
    filter_upwards [hkeys', valueOrder_settles ho he.2 hf.2 hr] with n hk hv
    rw [← hk, ← hv]
    rfl
  | _ =>
    filter_upwards [hkeys'] with n hk
    rw [← hk, ← Answer.result_pure_eq_ok.1 hr]
    rfl

/-- **Two dicts of the same length compare as their sorted entries do**, and a shorter one comes
first. -/
theorem dictOrder_settles {x y : List Entry} {o : Ordering} (hj : EqSound h judge)
    (ho : OrderSound h good judge)
    (hgx : ∀ e ∈ x, good e.key.value ∧ good e.value)
    (hgy : ∀ e ∈ y, good e.key.value ∧ good e.value)
    (hx : h.KeysFit (x.map Entry.key)) (hy : h.KeysFit (y.map Entry.key))
    (hr : (dictOrder judge x y).result = .ok o) :
    ∀ᶠ n in atTop, o = (compare x.length y.length).then
      (compare (Form.sort (x.map (h.entryForm n))) (Form.sort (y.map (h.entryForm n)))) := by
  rw [dictOrder] at hr
  split at hr
  · next hlen =>
    rw [Answer.result_pure_eq_ok] at hr
    refine Eventually.of_forall fun n => ?_
    rw [← hr]
    cases hc : compare x.length y.length with
    | eq => exact absurd (LawfulEqCmp.eq_of_compare hc) hlen
    | lt => rfl
    | gt => rfl
  · next hlen =>
    rw [Decidable.not_not] at hlen
    have hlen' (n : Nat) : (x.map (h.entryForm n)).length = (y.map (h.entryForm n)).length := by
      simpa using hlen
    simp only [hlen, compare_self, Ordering.eq_then]
    obtain ⟨first, hfirst, hr⟩ := Answer.result_bind_eq_ok.1 hr
    have hfirst' := smallestDifference_settles hj ho (fun e he => (hgx e he).1) hx hy hfirst
    cases first with
    | none =>
      rw [Answer.result_pure_eq_ok] at hr
      filter_upwards [hfirst', hx.eventually_nodup_entries] with n hn hnodup
      rw [sort_eq_of_subset hnodup (hlen' n) hn, compare_self, hr]
    | some e =>
      obtain ⟨second, hsecond, hr⟩ := Answer.result_bind_eq_ok.1 hr
      have hsecond' := smallestDifference_settles hj ho (fun e he => (hgy e he).1) hy hx hsecond
      cases second with
      | none =>
        rw [Answer.result_pure_eq_ok] at hr
        filter_upwards [hsecond', hy.eventually_nodup_entries] with n hn hnodup
        rw [sort_eq_of_subset hnodup (hlen' n).symm hn, compare_self, hr]
      | some f =>
        obtain ⟨n, hn, hn'⟩ := (hfirst'.and hsecond').exists
        have hboth := entryOrder_settles ho (hgx e hn.1) (hgy f hn'.1) hr
        filter_upwards [hboth, hfirst', hsecond', hx.eventually_nodup_entries,
          hy.eventually_nodup_entries] with n ho hp hq hnx hny
        rw [ho, Form.compare_sort_of_leastMissing hnx hny (hlen' n) hp.2 hq.2]

end Compare

end ValueHeap
