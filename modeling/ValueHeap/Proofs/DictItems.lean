import Mathlib.Data.List.Chain
import ValueHeap.Proofs.Equal
import ValueHeap.Proofs.Order

/-!
# Dicts are ordered by their sorted entries

Two dicts are ordered by their lengths and then like the lists of their entries, put in order by
key: the first entries that differ decide, by their keys and then by their values.  The comparison
itself never puts anything in order.  It looks for the smallest key at which each dict differs from
the other, and asks for hashes and equality on the way.

Forms make the two the same, since the form of a dict has its entries in order.  What is read here
off the operators alone, without forms, is an order of values, an arrangement of entries by that
order, and the lexicographic order of two arrangements.

## What is here

* `Heap.order?` — the order of two values that `<` and `==` tell.
* `Heap.Arranged` and `Heap.entriesOrder?` — entries in the order of their keys, and the order of
  two lists of entries.
* `Heap.Permutes` — the entries of one dict in another order, with equal keys and values.
* `dicts_ordered_by_items` — the operators on two dicts.
-/

set_option autoImplicit false

namespace ValueHeap

open Filter Std

/-- A second order decides where the first one comes out equal. -/
def thenOrder? (first second : Option Ordering) : Option Ordering :=
  first.bind fun
    | .eq => second
    | o => some o

namespace Heap

/-- The order of two values that `<` and `==` tell in total mode.  Identical values need not be
compared, and what is neither below nor equal is above. -/
def order? (h : Heap) (a b : Value) : Option Ordering :=
  if a.isIdentical b then some .eq
  else
    match (richCompare .total a b .lt h).result, (richCompare .total a b .eq h).result with
    | .ok true, _ => some .lt
    | .ok false, .ok true => some .eq
    | .ok false, .ok false => some .gt
    | _, _ => none

/-- The lexicographic order of two lists of entries: the keys of the first entries, then the values
under them, and then the rest. -/
def entriesOrder? (h : Heap) : List Entry → List Entry → Option Ordering
  | [], [] => some .eq
  | [], _ :: _ => some .lt
  | _ :: _, [] => some .gt
  | e :: xs, f :: ys =>
    thenOrder? (h.order? e.key.value f.key.value) <|
      thenOrder? (h.order? e.value f.value) (h.entriesOrder? xs ys)

/-- The entries in the order of their keys. -/
structure Arranged (h : Heap) (entries sorted : List Entry) : Prop where
  perm : sorted.Perm entries
  chain : sorted.IsChain fun e f => h.order? e.key.value f.key.value = some .lt

/-- The same entries in another order, where equal keys and values count as the same. -/
def Permutes (h : Heap) (x y : List Entry) : Prop :=
  ∃ z, z.Perm y ∧
    List.Forall₂ (fun e f => h.Equal e.key.value f.key.value ∧ h.Equal e.value f.value) x z

variable {h : Heap} {a b : Value} {o : Ordering} {x y xs ys : List Entry}

/-! ## Orders read off forms -/

theorem thenOrder?_settles {first second : Option Ordering} {X Y : Nat → Ordering}
    (hfirst : ∀ p, first = some p → ∀ᶠ n in atTop, p = X n)
    (hsecond : ∀ q, second = some q → ∀ᶠ n in atTop, q = Y n)
    (ho : thenOrder? first second = some o) : ∀ᶠ n in atTop, o = (X n).then (Y n) := by
  obtain ⟨p, hp, ho⟩ := Option.bind_eq_some_iff.1 ho
  cases p with
  | eq =>
    filter_upwards [hfirst _ hp, hsecond o ho] with n hX hY
    rw [← hX, ← hY]
    rfl
  | lt | gt =>
    filter_upwards [hfirst _ hp] with n hX
    rw [← hX, ← Option.some.inj ho]
    rfl

theorem order?_settles (hk : h.Keyed) (ha : h.Orderable a) (hb : h.Orderable b)
    (ho : h.order? a b = some o) : ∀ᶠ n in atTop, o = compare (h.form n a) (h.form n b) := by
  rw [order?] at ho
  split at ho
  · next hid =>
    rw [← Option.some.inj ho, Value.isIdentical_iff.1 hid]
    exact Eventually.of_forall fun n => (compare_self).symm
  · split at ho
    · next hlt =>
      rw [← Option.some.inj ho]
      exact (Says.below hk ha hb hlt).mono fun _ => Eq.symm
    · next hlt heq =>
      rw [← Option.some.inj ho]
      exact (Says.alike hk ha hb heq).mono fun n hn => by rw [hn, compare_self]
    · next hlt heq =>
      rw [← Option.some.inj ho]
      filter_upwards [Says.settles hk ha hb hlt, Says.settles hk ha hb heq] with n hlt heq
      cases hc : compare (h.form n a) (h.form n b) <;> simp [hc, Operator.holds] at hlt heq ⊢
    · cases ho

/-- Keys and values that have a place in the order. -/
def OrderableEntries (h : Heap) (entries : List Entry) : Prop :=
  ∀ e ∈ entries, h.Orderable e.key.value ∧ h.Orderable e.value

theorem Orderable.entries {s : Slot} (hv : h.Orderable (.ref s)) (hx : h.find? s = some (.dict x)) :
    h.OrderableEntries x := fun e he =>
  ⟨hv.part hx (List.mem_flatMap.2 ⟨e, he, by simp [Entry.parts]⟩),
    hv.part hx (List.mem_flatMap.2 ⟨e, he, by simp [Entry.parts]⟩)⟩

/-- Entries are ordered as their forms are. -/
theorem entriesOrder?_settles (hk : h.Keyed) (hx : h.OrderableEntries xs)
    (hy : h.OrderableEntries ys) (ho : h.entriesOrder? xs ys = some o) :
    ∀ᶠ n in atTop, o = compare (xs.map (h.entryForm n)) (ys.map (h.entryForm n)) := by
  induction xs generalizing ys o with
  | nil =>
    cases ys <;> cases ho <;> exact Eventually.of_forall fun _ => rfl
  | cons e xs ih =>
    cases ys with
    | nil => cases ho; exact Eventually.of_forall fun _ => rfl
    | cons f ys =>
      obtain ⟨he, hx⟩ := List.forall_mem_cons.1 hx
      obtain ⟨hf, hy⟩ := List.forall_mem_cons.1 hy
      have hrest := thenOrder?_settles (fun _ => order?_settles hk he.1 hf.1)
        (fun _ => thenOrder?_settles (fun _ => order?_settles hk he.2 hf.2) fun _ => ih hx hy) ho
      filter_upwards [hrest] with n hn
      rw [hn, List.map_cons, List.map_cons, List.compare_cons_cons, entryForm, entryForm,
        Form.compare_pair, Ordering.then_assoc]

theorem eventually_isChain {α : Type} {R : Nat → α → α → Prop} {xs : List α}
    (hx : xs.IsChain fun x y => ∀ᶠ n in atTop, R n x y) : ∀ᶠ n in atTop, xs.IsChain (R n) := by
  induction hx with
  | nil => exact Eventually.of_forall fun _ => .nil
  | singleton x => exact Eventually.of_forall fun _ => .singleton x
  | cons_cons hxy _ ih =>
    filter_upwards [hxy, ih] with n hhead htail
    exact .cons_cons hhead htail

/-- The forms of arranged entries are in order. -/
theorem Arranged.map_entryForm (hk : h.Keyed) (hx : h.OrderableEntries x)
    (hxs : h.Arranged x xs) :
    ∀ᶠ n in atTop, xs.map (h.entryForm n) = Form.sort (x.map (h.entryForm n)) := by
  have hgood : h.OrderableEntries xs := fun e he => hx e (hxs.perm.subset he)
  have hchain : xs.IsChain fun e f =>
      ∀ᶠ n in atTop, compare (h.keyForm n e.key) (h.keyForm n f.key) = .lt := by
    refine List.IsChain.imp_of_mem_imp ?_ hxs.chain
    intro e f he hf hlt
    exact (order?_settles hk (hgood e he).1 (hgood f hf).1 hlt).mono fun _ => Eq.symm
  filter_upwards [eventually_isChain hchain] with n hn
  have htrans : IsTrans Entry fun e f => compare (h.keyForm n e.key) (h.keyForm n f.key) = .lt :=
    ⟨fun _ _ _ => TransCmp.lt_trans⟩
  have hsorted : (xs.map (h.entryForm n)).Pairwise fun e f => (compare e f).isLE :=
    List.pairwise_map.2 <| (List.isChain_iff_pairwise.1 hn).imp fun {e f} hlt => by
      rw [entryForm, entryForm, Form.compare_pair, ← keyForm, ← keyForm, hlt]
      rfl
  calc xs.map (h.entryForm n)
      = Form.sort (xs.map (h.entryForm n)) := (List.mergeSort_of_pairwise hsorted).symm
    _ = Form.sort (x.map (h.entryForm n)) := Form.sort_eq_iff.2 (hxs.perm.map _)

/-- From some depth on the forms of the keys are ordered as the keys are. -/
theorem OrderableEntries.eventually_order?_eq (hk : h.Keyed) (hx : h.OrderableEntries x)
    (hkeys : ∀ e ∈ x, ∀ f ∈ x, (h.order? e.key.value f.key.value).isSome) :
    ∀ᶠ n in atTop, ∀ e ∈ x, ∀ f ∈ x,
      h.order? e.key.value f.key.value = some (compare (h.keyForm n e.key) (h.keyForm n f.key)) :=
  eventually_forall_mem fun e he => eventually_forall_mem fun f hf => by
    obtain ⟨o, ho⟩ := Option.isSome_iff_exists.1 (hkeys e he f hf)
    filter_upwards [order?_settles hk (hx e he).1 (hx f hf).1 ho] with n hn
    exact ho.trans (congrArg some hn)

/-- Entries can be arranged if every two keys can be compared. -/
theorem exists_arranged (hk : h.Keyed) {s : Slot} (hv : h.Orderable (.ref s))
    (hx : h.find? s = some (.dict x))
    (hkeys : ∀ e ∈ x, ∀ f ∈ x, (h.order? e.key.value f.key.value).isSome) :
    ∃ xs, h.Arranged x xs := by
  -- at some depth the keys have different forms as well
  obtain ⟨n, horder, hapart⟩ := (((hv.entries hx).eventually_order?_eq hk hkeys).and
    (hk s _ hx).eventually_apart).exists
  let le (e f : Entry) : Bool := (compare (h.keyForm n e.key) (h.keyForm n f.key)).isLE
  have hperm : (x.mergeSort le).Perm x := List.mergeSort_perm x le
  have hsorted : (x.mergeSort le).Pairwise fun e f => le e f = true :=
    List.pairwise_mergeSort (fun _ _ _ => TransCmp.isLE_trans)
      (fun e f => by
        simp only [le]
        rw [OrientedOrd.eq_swap (a := h.keyForm n f.key)]
        cases compare (h.keyForm n e.key) (h.keyForm n f.key) <;> rfl) x
  rw [Payload.keys, List.pairwise_map] at hapart
  have hdistinct := hperm.symm.pairwise hapart fun hne => hne.symm
  refine ⟨x.mergeSort le, hperm, List.Pairwise.isChain ?_⟩
  refine (hsorted.and hdistinct).imp_of_mem ?_
  rintro e f he hf ⟨hle, hne⟩
  rw [horder e (hperm.subset he) f (hperm.subset hf)]
  cases hc : compare (h.keyForm n e.key) (h.keyForm n f.key) with
  | lt => rfl
  | eq => exact absurd (LawfulEqCmp.eq_of_compare hc) hne
  | gt => simp [le, hc] at hle

/-- Equal entries in another order make the same form. -/
theorem alike_of_permutes (hk : h.Keyed) {s t : Slot} (hx : h.find? s = some (.dict x))
    (hy : h.find? t = some (.dict y)) (hxy : h.Permutes x y) : h.Alike (.ref s) (.ref t) := by
  obtain ⟨z, hperm, hequal⟩ := hxy
  have hforms : ∀ᶠ n in atTop, x.map (h.entryForm n) = z.map (h.entryForm n) := by
    clear hx hperm
    induction hequal with
    | nil => exact Eventually.of_forall fun _ => rfl
    | cons hef _ ih =>
      filter_upwards [hef.1.alike hk, hef.2.alike hk, ih] with n hkey hvalue hrest
      rw [List.map_cons, List.map_cons, hrest, entryForm, entryForm, hkey, hvalue]
  refine settles_eq_true.1 (Compare.dicts_settle_eq hx hy (hforms.mono fun n hn => ?_))
  rw [hn]
  exact ⟨fun _ => hperm.map _, fun _ => rfl⟩

end Heap

/-- **Dicts are ordered by their sorted entries** in total mode, if no set, no complex number and no
NaN occurs in them, in whatever can come about.  Let an operator say something of two dicts.

Where the lengths differ, it says what it makes of their order.  Otherwise it says what it makes of
the lexicographic order of the entries, however these are arranged by key, if the comparisons in that
order give results.  There is an arrangement if the comparisons of the keys do.

It says the same of two dicts with the same entries in other orders. -/
theorem dicts_ordered_by_items {budget : Budget} {c : Custody} (hc : Reachable budget c)
    {s t : Slot} {x y : List Entry} (hx : c.heap.find? s = some (.dict x))
    (hy : c.heap.find? t = some (.dict y)) (hs : c.heap.Orderable (.ref s))
    (ht : c.heap.Orderable (.ref t)) :
    (∀ op r, c.heap.Says op (.ref s) (.ref t) r →
      (x.length ≠ y.length → r = op.holds (compare x.length y.length)) ∧
      (x.length = y.length → ∀ xs ys o, c.heap.Arranged x xs → c.heap.Arranged y ys →
        c.heap.entriesOrder? xs ys = some o → r = op.holds o)) ∧
    ((∀ e ∈ x, ∀ f ∈ x, (c.heap.order? e.key.value f.key.value).isSome) →
      ∃ xs, c.heap.Arranged x xs) ∧
    (∀ s' t' x' y', c.heap.find? s' = some (.dict x') → c.heap.find? t' = some (.dict y') →
      c.heap.Orderable (.ref s') → c.heap.Orderable (.ref t') →
      c.heap.Permutes x x' → c.heap.Permutes y y' → ∀ op r r',
        c.heap.Says op (.ref s) (.ref t) r → c.heap.Says op (.ref s') (.ref t') r' → r' = r) := by
  have hk := hc.sound.coherent.keyed
  refine ⟨fun op r hr => ?_, Heap.exists_arranged hk hs hx, ?_⟩
  · have hr' := hr.settles hk hs ht
    -- the result is read off any order that the forms are in from some depth on
    have hread {o : Ordering} (ho : ∀ᶠ n in atTop, o = (compare x.length y.length).then
        (compare (Form.sort (x.map (c.heap.entryForm n)))
          (Form.sort (y.map (c.heap.entryForm n))))) : r = op.holds o := by
      have hdicts : c.heap.Settles op (op.holds o) (.ref s) (.ref t) :=
        Compare.dicts_settle hx hy ho
      obtain ⟨n, hn, hn'⟩ := (hr'.and hdicts).exists
      rw [hn, ← hn']
    constructor
    · intro hlen
      refine hread (Eventually.of_forall fun n => ?_)
      cases hcompare : compare x.length y.length with
      | eq => exact absurd (LawfulEqCmp.eq_of_compare hcompare) hlen
      | lt | gt => rfl
    · intro hlen xs ys o hxs hys ho
      have hgx : c.heap.OrderableEntries xs := fun e he => hs.entries hx e (hxs.perm.subset he)
      have hgy : c.heap.OrderableEntries ys := fun e he => ht.entries hy e (hys.perm.subset he)
      refine hread ?_
      filter_upwards [Heap.entriesOrder?_settles hk hgx hgy ho,
        hxs.map_entryForm hk (hs.entries hx), hys.map_entryForm hk (ht.entries hy)]
        with n hn hxn hyn
      rw [hlen, compare_self, Ordering.eq_then, ← hxn, ← hyn, hn]
  · intro s' t' x' y' hx' hy' hs' ht' hxx hyy op r r' hr hr'
    obtain ⟨n, ⟨hn, hn'⟩, hsn, htn⟩ := (((hr.settles hk hs ht).and (hr'.settles hk hs' ht')).and
      ((Heap.alike_of_permutes hk hx hx' hxx).and (Heap.alike_of_permutes hk hy hy' hyy))).exists
    rw [hn, hn', hsn, htn]

/-- The dict of 2 under 1 and 4 under 3 is below that of 4 under 3 and 5 under 1, and so it is with
its own entries the other way round. -/
theorem dicts_ordered_by_items_pairs :
    ∃ c : Custody, Reachable .untracked c ∧
      c.heap.find? 0 = some (.dict [⟨⟨.int 1, 1⟩, .int 2⟩, ⟨⟨.int 3, 3⟩, .int 4⟩]) ∧
      c.heap.find? 1 = some (.dict [⟨⟨.int 3, 3⟩, .int 4⟩, ⟨⟨.int 1, 1⟩, .int 5⟩]) ∧
      c.heap.find? 2 = some (.dict [⟨⟨.int 3, 3⟩, .int 4⟩, ⟨⟨.int 1, 1⟩, .int 2⟩]) ∧
      c.heap.Says .lt (.ref 0) (.ref 1) true ∧
      (∀ r, c.heap.Says .le (.ref 0) (.ref 1) r → r = true) ∧
      ∀ r, c.heap.Says .lt (.ref 2) (.ref 1) r → r = true := by
  let o : Object := .tuple [.dict [(.int 1, .int 2), (.int 3, .int 4)],
    .dict [(.int 3, .int 4), (.int 1, .int 5)], .dict [(.int 3, .int 4), (.int 1, .int 2)]]
  let c : Custody := Custody.after ⟨Heap.empty .untracked, 0⟩ (.build o) [.ref 3]
  have hc : Reachable .untracked c :=
    .result [.ref 3] .start (Request.permitted_build o _) (by decide +kernel)
  have hx : c.heap.find? 0 = some (.dict [⟨⟨.int 1, 1⟩, .int 2⟩, ⟨⟨.int 3, 3⟩, .int 4⟩]) := by
    decide +kernel
  have hy : c.heap.find? 1 = some (.dict [⟨⟨.int 3, 3⟩, .int 4⟩, ⟨⟨.int 1, 1⟩, .int 5⟩]) := by
    decide +kernel
  have hx' : c.heap.find? 2 = some (.dict [⟨⟨.int 3, 3⟩, .int 4⟩, ⟨⟨.int 1, 1⟩, .int 2⟩]) := by
    decide +kernel
  have hint (n : Int64) : c.heap.Orderable (.int n) := Heap.orderable_immediate rfl nofun
  have hdict {s : Slot} {k l m n : Int64} {i j : UInt64}
      (hp : c.heap.find? s = some (.dict [⟨⟨.int k, i⟩, .int l⟩, ⟨⟨.int m, j⟩, .int n⟩])) :
      c.heap.Orderable (.ref s) := by
    refine Heap.orderable_ref hp ⟨nofun, nofun⟩ fun v hv => ?_
    simp only [Payload.parts, List.flatMap_cons, List.flatMap_nil, Entry.parts, List.mem_append,
      List.mem_cons, List.not_mem_nil, or_false] at hv
    rcases hv with (rfl | rfl) | rfl | rfl <;> exact hint _
  have hsays : c.heap.Says .lt (.ref 0) (.ref 1) true := by
    show (richCompare .total _ _ _ _).result = _
    decide +kernel
  obtain ⟨hitems, -, hpermuted⟩ := dicts_ordered_by_items hc hx hy (hdict hx) (hdict hy)
  refine ⟨c, hc, hx, hy, hx', hsays, fun r hr => ?_, fun r hr => ?_⟩
  · refine (hitems .le r hr).2 rfl [⟨⟨.int 1, 1⟩, .int 2⟩, ⟨⟨.int 3, 3⟩, .int 4⟩]
      [⟨⟨.int 1, 1⟩, .int 5⟩, ⟨⟨.int 3, 3⟩, .int 4⟩] .lt ⟨by decide, ?_⟩ ⟨by decide, ?_⟩ ?_
    · exact .cons_cons (by decide +kernel) (.singleton _)
    · exact .cons_cons (by decide +kernel) (.singleton _)
    · decide +kernel
  · have hsame (v : Value) : c.heap.Equal v v := Or.inl (Value.isIdentical_refl v)
    refine hpermuted 2 1 _ _ hx' hy (hdict hx') (hdict hy) ⟨_, .swap _ _ _, ?_⟩
      ⟨_, .refl _, ?_⟩ .lt true r hsays hr
    · exact .cons ⟨hsame _, hsame _⟩ (.cons ⟨hsame _, hsame _⟩ .nil)
    · exact .cons ⟨hsame _, hsame _⟩ (.cons ⟨hsame _, hsame _⟩ .nil)

end ValueHeap
