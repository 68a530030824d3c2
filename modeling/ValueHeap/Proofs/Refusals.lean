import ValueHeap.Proofs.Compare.Blame
import ValueHeap.Proofs.Counts

/-!
# When a comparison is refused

A comparison of two values in use comes to an end, whatever the values are, cyclic ones included: in
a result, or in one of two errors.  It is a recursion error only if one of the values has as many
levels of containers as are left, and a type error only of an ordering, in strict mode or beside a
complex number.  So total mode compares whatever is not too deep and has no complex number in it.

## What is here

* `richCompare_refusals` — what a comparison comes to, in whatever can come about.
-/

set_option autoImplicit false

namespace ValueHeap

/-- **A comparison is refused for want of levels or for want of an order.**  In whatever can come
about, a comparison of two values in use ends in a result, in a recursion error or in a type error.
After a recursion error one of the values is nested at least as deeply as levels were left.  A type
error comes of `<`, `<=`, `>` or `>=` only, in strict mode or where a complex number occurs in one
of the values.  In total mode, values without a complex number that are nested less deeply than
levels are left do compare. -/
theorem richCompare_refusals {budget : Budget} {c : Custody} (hc : Reachable budget c)
    {a b : Value} (ha : c.heap.Names a) (hb : c.heap.Names b) (mode : Mode) (op : Operator) :
    ((∃ r, (richCompare mode a b op c.heap).result = .ok r) ∨
      ∃ e, (richCompare mode a b op c.heap).result = .error (.error (.raised e)) ∧
        ((e = .comparisonTooDeep ∧
            (c.heap.levelsLeft ≤ c.heap.nesting a ∨ c.heap.levelsLeft ≤ c.heap.nesting b)) ∨
          (e.kind = .typeError ∧ op.isEquality = false ∧
            (mode = .strict ∨ c.heap.HoldsComplex a ∨ c.heap.HoldsComplex b)))) ∧
      (mode = .total → c.heap.nesting a < c.heap.levelsLeft →
        c.heap.nesting b < c.heap.levelsLeft → ¬c.heap.HoldsComplex a → ¬c.heap.HoldsComplex b →
        ∃ r, (richCompare mode a b op c.heap).result = .ok r) := by
  have hcoherent := hc.sound.coherent
  have hfaultless := Compare.within_faultless hcoherent mode c.heap.levelsLeft a b op ha hb
  have hblames := Compare.within_blames c.heap mode c.heap.levelsLeft a b op
  rw [richCompare, Action.result_consult]
  cases hr : (Compare.within c.heap mode c.heap.levelsLeft a b op).result with
  | ok r => exact ⟨Or.inl ⟨r, rfl⟩, fun _ _ _ _ _ => ⟨r, rfl⟩⟩
  | error halt =>
    cases halt with
    | fault f levels => exact absurd hr (hfaultless f levels)
    | error e =>
      cases hblames _ hr e rfl with
      | tooDeep hn =>
        refine ⟨Or.inr ⟨_, rfl, Or.inl ⟨rfl, hn⟩⟩, fun _ hna hnb _ _ => ?_⟩
        exact absurd hn (not_or.2 ⟨not_le.2 hna, not_le.2 hnb⟩)
      | unordered hop hmode asked left right =>
        refine ⟨Or.inr ⟨_, rfl, Or.inr ⟨rfl, hop, Or.inl hmode⟩⟩, fun htotal _ _ _ _ => ?_⟩
        rw [hmode] at htotal
        cases htotal
      | complexOrdering hop hcomplex =>
        refine ⟨Or.inr ⟨_, rfl, Or.inr ⟨rfl, hop, Or.inr hcomplex⟩⟩, fun _ _ _ hna hnb => ?_⟩
        exact absurd hcomplex (not_or.2 ⟨hna, hnb⟩)

/-- With two levels left, two lists of lists of floats are nested too deeply to be compared.  The
inner lists are not. -/
theorem richCompare_refusals_nested :
    ∃ c : Custody, Reachable (.under { depth := some 2 }) c ∧
      c.heap.find? 0 = some (.list [.float ⟨0x3ff0000000000000⟩]) ∧
      c.heap.find? 1 = some (.list [.ref 0]) ∧
      c.heap.find? 2 = some (.list [.float ⟨0x4000000000000000⟩]) ∧
      c.heap.find? 3 = some (.list [.ref 2]) ∧ c.heap.levelsLeft = 2 ∧
      (richCompare .total (.ref 1) (.ref 3) .lt c.heap).result =
        .error (.error (.raised .comparisonTooDeep)) ∧
      (2 ≤ c.heap.nesting (.ref 1) ∨ 2 ≤ c.heap.nesting (.ref 3)) ∧
      ∃ r, (richCompare .total (.ref 0) (.ref 2) .lt c.heap).result = .ok r := by
  let o : Object := .tuple [.list [.list [.float ⟨0x3ff0000000000000⟩]],
    .list [.list [.float ⟨0x4000000000000000⟩]]]
  let c : Custody :=
    Custody.after ⟨Heap.empty (.under { depth := some 2 }), 0⟩ (.build o) [.ref 4]
  have hc : Reachable (.under { depth := some 2 }) c :=
    .result [.ref 4] .start (Request.permitted_build o _) (by decide +kernel)
  have hnames {s : Slot} (hs : (c.heap.find? s).isSome) : c.heap.Names (.ref s) :=
    fun t ht => Value.ref.inj ht ▸ hs
  have hdeep : (richCompare .total (.ref 1) (.ref 3) .lt c.heap).result =
      .error (.error (.raised .comparisonTooDeep)) := by
    decide +kernel
  -- a list of one float is no more than one level, and holds no complex number
  have hflat {s : Slot} {x : Binary64} (hs : c.heap.find? s = some (.list [.float x])) :
      c.heap.nesting (.ref s) < c.heap.levelsLeft ∧ ¬c.heap.HoldsComplex (.ref s) := by
    constructor
    · refine lt_of_le_of_lt (Heap.nesting_le hs (b := 0) fun y hy => ?_) (by decide +kernel)
      obtain rfl := List.mem_singleton.1 hy
      exact (Heap.nesting_eq_zero fun _ _ hx => by cases hx).le
    · rintro ⟨t, re, im, hocc, ht⟩
      cases hocc with
      | self => rw [hs] at ht; cases ht
      | part hp hy hocc =>
        cases hs.symm.trans hp
        obtain rfl := List.mem_singleton.1 hy
        cases hocc
  have hzero : c.heap.find? 0 = some (.list [.float ⟨0x3ff0000000000000⟩]) := by decide +kernel
  have htwo : c.heap.find? 2 = some (.list [.float ⟨0x4000000000000000⟩]) := by decide +kernel
  refine ⟨c, hc, hzero, by decide +kernel, htwo, by decide +kernel, by decide +kernel, hdeep, ?_,
    (richCompare_refusals hc (hnames (by rw [hzero]; rfl)) (hnames (by rw [htwo]; rfl)) .total
      .lt).2 rfl (hflat hzero).1 (hflat htwo).1 (hflat hzero).2 (hflat htwo).2⟩
  rcases (richCompare_refusals hc (a := .ref 1) (b := .ref 3) (hnames (by decide +kernel))
    (hnames (by decide +kernel)) .total .lt).1 with ⟨r, hr⟩ | ⟨e, he, ⟨rfl, hn⟩ | ⟨hkind, -⟩⟩
  · rw [hdeep] at hr
    cases hr
  · exact hn
  · rw [hdeep] at he
    cases he
    cases hkind

end ValueHeap
