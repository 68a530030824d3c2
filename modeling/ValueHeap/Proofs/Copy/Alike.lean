import ValueHeap.Proofs.Compare.Contents
import ValueHeap.Proofs.Compare.Level
import ValueHeap.Proofs.Copy.Corresponds

/-!
# A copy compares equal

A copy has the form of its original: leaves are shared, and contents that are made anew have the
same keys and copies of the same parts.  So wherever a comparison of the two comes to a pair of
parts, these are the same value or have the same form, and it goes on to the end without ever
asking which of two parts is the smaller one.  Neither a NaN nor a complex number stands in the way:
they are shared, and identity comes first.

## What is here

* `Payload.Mirrors` — contents of the same kind with the same keys, and parts of the same forms.
* `Copied.form_eq` — a copy has the form of its original.
* `Compare.dispatch_of_mirrors` and `Compare.within_of_mirrors` — contents that mirror each other
  are found equal.
* `Heap.Ties` — two values of which an operator says what it says of equal ones.
* `deepCopy_compares_equal` — **a copy and its original are found equal, by all operators.**
-/

set_option autoImplicit false

namespace ValueHeap

open Filter

/-! ## The form of a copy -/

namespace Payload

variable {p q : Payload} {f : Value → Form}

theorem entryForms_eq {xs ys : List Entry} (hkeys : ys.map Entry.key = xs.map Entry.key)
    (hvalues : xs.map (fun e => f e.value) = ys.map fun e => f e.value) :
    xs.map (fun e => Form.pair (f e.key.value) (f e.value)) =
      ys.map fun e => Form.pair (f e.key.value) (f e.value) := by
  induction xs generalizing ys with
  | nil =>
    rw [List.map_nil, List.map_eq_nil_iff] at hkeys
    rw [hkeys]
  | cons e xs ih =>
    cases ys with
    | nil => cases hkeys
    | cons e' ys =>
      rw [List.map_cons, List.map_cons, List.cons.injEq] at hkeys hvalues ⊢
      rw [hkeys.1, hvalues.1]
      exact ⟨rfl, ih hkeys.2 hvalues.2⟩

/-- The parts of contents that were made anew have the forms of the parts that were copied. -/
theorem formParts_eq (hrebuilt : p.isRebuilt = true) (hkind : q.kindName = p.kindName)
    (hkeys : q.keys = p.keys) (hparts : p.copiedParts.map f = q.copiedParts.map f) :
    p.formParts f = q.formParts f := by
  cases p with
  | list xs => cases q <;> simp_all [kindName, copiedParts, formParts]
  | tuple xs => cases q <;> simp_all [kindName, copiedParts, formParts]
  | set xs => cases q <;> simp_all [kindName, keys, formParts]
  | dict xs =>
    cases q with
    | dict ys =>
      simp only [copiedParts, List.map_map] at hparts
      exact congrArg Form.sort (entryForms_eq hkeys hparts)
    | _ => simp [kindName] at hkind
  | _ => cases hrebuilt

theorem labelOf_eq {k : Heap} {s t : Slot} (hrebuilt : p.isRebuilt = true)
    (hkind : q.kindName = p.kindName) (hlength : q.length? = p.length?) :
    k.labelOf s p = k.labelOf t q := by
  cases p with
  | list | tuple | set => cases q <;> first | rfl | simp [kindName] at hkind
  | dict xs =>
    cases q with
    | dict ys =>
      rw [Heap.labelOf, Heap.labelOf, Option.some.inj hlength]
    | _ => simp [kindName] at hkind
  | _ => cases hrebuilt

end Payload

/-- Contents of the same kind with the same keys, and with other parts of the same forms. -/
structure Payload.Mirrors (h : Heap) (p q : Payload) : Prop where
  kind : q.kindName = p.kindName
  keys : q.keys = p.keys
  parts : ∀ n, p.copiedParts.map (h.form n) = q.copiedParts.map (h.form n)

theorem Payload.Mirrors.symm {h : Heap} {p q : Payload} (hpq : p.Mirrors h q) : q.Mirrors h p :=
  ⟨hpq.kind.symm, hpq.keys.symm, fun n => (hpq.parts n).symm⟩

/-- **Values and their copies have the same forms.** -/
theorem Copied.form_eq {h k : Heap} {vs ws : List Value} {fresh shared : Multiset Slot}
    (hhk : h.Extends k) (hc : Copied h k vs ws fresh shared) (n : Nat) :
    vs.map (k.form n) = ws.map (k.form n) := by
  induction hc generalizing n with
  | nil => rfl
  | immediate _ _ ih => rw [List.map_cons, List.map_cons, ih]
  | leaf _ _ _ ih => rw [List.map_cons, List.map_cons, ih]
  | @rebuilt s t p q _ _ _ _ _ _ hp hnew hq hrebuilt hkind hlength hkeys _ _ ihparts ih =>
    have hlabel := Payload.labelOf_eq (k := k) (s := s) (t := t) hrebuilt hkind hlength
    have hform : k.form n (.ref s) = k.form n (.ref t) := by
      cases n with
      | zero => rw [Heap.form, Heap.form, Heap.label_ref (hhk s p hp), Heap.label_ref hq, hlabel]
      | succ n =>
        rw [Heap.form_ref (hhk s p hp), Heap.form_ref hq, hlabel,
          Payload.formParts_eq hrebuilt hkind hkeys (ihparts n)]
    rw [List.map_cons, List.map_cons, hform, ih]

namespace Compare

open Answer

variable {h : Heap} {judge : Judge} {mode : Mode} {levels : Nat} {op : Operator} {s t : Slot}
  {p q : Payload}

/-! ## Parts that tie -/

/-- Values of the same forms tie. -/
theorem ties_of_forms (hc : h.Coherent) {xs ys : List Value} (hx : ∀ x ∈ xs, h.Names x)
    (hy : ∀ y ∈ ys, h.Names y) (hforms : ∀ n, xs.map (h.form n) = ys.map (h.form n)) :
    List.Forall₂ (fun x y => Settled (sameOrEqual (within h mode levels) x y) true) xs ys := by
  induction xs generalizing ys with
  | nil =>
    obtain rfl := List.map_eq_nil_iff.1 (hforms 0).symm
    exact .nil
  | cons x xs ih =>
    cases ys with
    | nil => cases hforms 0
    | cons y ys =>
      rw [List.forall_mem_cons] at hx hy
      have halike : h.Alike x y := Eventually.of_forall fun n => (List.cons.inj (hforms n)).1
      exact .cons (sameOrEqual_of_alike hc hx.1 hy.1 halike)
        (ih hx.2 hy.2 fun n => (List.cons.inj (hforms n)).2)

/-- Sequences tie where all their items do. -/
theorem sequences_of_ties {xs ys : List Value}
    (hties : List.Forall₂ (fun x y => Settled (sameOrEqual judge x y) true) xs ys) :
    Settled (sequences judge op xs ys) (op.holds .eq) := by
  have hitems : Settled (itemByItem judge op xs ys) (op.holds .eq) := by
    induction hties with
    | nil => exact Or.inl rfl
    | cons htie _ ih => cases op <;> exact htie.bind ih
  rw [sequences, if_neg fun hne => hne.1 hties.length_eq]
  exact hitems

/-! ## Dicts whose entries do not differ -/

section Dicts

variable {x y : List Entry}

theorem entriesWithin_of_same (hsame : ∀ e ∈ x, Settled (differs judge e y) false) :
    Settled (entriesWithin judge y x) true := by
  induction x with
  | nil => exact Or.inl rfl
  | cons e x ih =>
    rw [entriesWithin]
    exact (hsame e List.mem_cons_self).bind (ih fun f hf => hsame f (List.mem_cons_of_mem e hf))

/-- No entry is ever the best one so far, so no two keys are compared. -/
theorem smallestFrom_of_same (hsame : ∀ e ∈ x, Settled (differs judge e y) false) :
    Settled (smallestFrom judge y none x) none := by
  induction x with
  | nil => exact Or.inl rfl
  | cons e x ih =>
    rw [smallestFrom]
    exact (hsame e List.mem_cons_self).bind (ih fun f hf => hsame f (List.mem_cons_of_mem e hf))

theorem dictsEqual_of_same (hlength : x.length = y.length)
    (hsame : ∀ e ∈ x, Settled (differs judge e y) false) :
    Settled (dictsEqual judge x y) true := by
  rw [dictsEqual, if_pos hlength]
  exact entriesWithin_of_same hsame

theorem dictOrder_of_same (hlength : x.length = y.length)
    (hsame : ∀ e ∈ x, Settled (differs judge e y) false) :
    Settled (dictOrder judge x y) .eq := by
  rw [dictOrder, if_neg (not_not.2 hlength)]
  exact (smallestFrom_of_same hsame).bind (Or.inl rfl)

end Dicts

/-! ## Lookups -/

/-- What is looked up among keys in use stops only for want of levels. -/
theorem sameOrEqual_onlyTooDeep (hc : h.Coherent) {a a' b b' : Value}
    (ha : a = a' ∧ h.Names a) (hb : b = b' ∧ h.Names b) :
    Matches (.only (· = .tooDeep)) Eq (sameOrEqual (within h mode levels) a b)
      (sameOrEqual (within h mode levels) a' b') := by
  obtain ⟨rfl, ha⟩ := ha
  obtain ⟨rfl, hb⟩ := hb
  exact sameOrEqual_matches Iff.rfl (stops_iff.1 fun _ => within_eq_error hc ha hb)

theorem differs_of_mem (hc : h.Coherent) {x y : List Entry} {e : Entry}
    (hs : h.find? s = some (.dict x)) (ht : h.find? t = some (.dict y)) (he : e ∈ x)
    (hmem : ∀ n, h.entryForm n e ∈ y.map (h.entryForm n)) :
    Settled (differs (within h mode levels) e y) false := by
  have hlifts {r : Slot} {es : List Entry} (hr : h.find? r = some (.dict es)) {f : Entry}
      (hf : f ∈ es) : f.Lifts (fun v w => v = w ∧ h.Names v) f := by
    have hname {v : Value} (hv : v ∈ f.parts) : h.Names v :=
      hc.closed.names hr (List.mem_flatMap.2 ⟨f, hf, hv⟩)
    exact ⟨⟨⟨rfl, hname (by simp [Entry.parts])⟩, rfl⟩, ⟨rfl, hname (by simp [Entry.parts])⟩⟩
  refine .of_stops (stops_iff.2 ?_) fun r hr => ?_
  · exact differs_matches (sameOrEqual_onlyTooDeep hc) (hlifts hs he)
      (List.forall₂_same.2 fun f hf => hlifts ht hf)
  · have hkey := (hc.fits s _ hs).keys.hashes e.key (List.mem_map_of_mem he)
    obtain ⟨n, hn⟩ := (differs_settles (within_eqSound hc.keyed mode levels) hkey
      (hc.fits t _ ht).keys hr).exists
    exact Bool.eq_false_iff.2 fun htrue => hn.1 htrue (hmem n)

theorem isSubset_refl (hc : h.Coherent) {x : List HashedKey} (hs : h.find? s = some (.set x)) :
    Settled (isSubset (within h mode levels) x x) true := by
  have hlifts : List.Forall₂ (HashedKey.Lifts fun v w => v = w ∧ h.Names v) x x :=
    List.forall₂_same.2 fun k hk => ⟨⟨rfl, hc.closed.names hs (List.mem_map_of_mem hk)⟩, rfl⟩
  refine .of_stops (stops_iff.2 ?_) fun r hr => ?_
  · exact isSubset_matches (sameOrEqual_onlyTooDeep hc) hlifts hlifts
  · have hkeys := (hc.fits s _ hs).keys
    obtain ⟨n, hn⟩ :=
      (isSubset_settles (within_eqSound hc.keyed mode levels) hkeys hkeys hr).exists
    exact hn.2 (List.Subset.refl _)

theorem sets_refl {x : List HashedKey} (hx : Settled (isSubset judge x x) true) :
    Settled (sets judge op x x) (op.holds .eq) := by
  cases op with
  | eq => rwa [sets, if_pos rfl]
  | ne =>
    show Settled (if x.length = x.length then isSubset judge x x >>= fun equal => pure !equal
      else (pure false : Answer Bool) >>= fun equal => pure !equal) false
    rw [if_pos rfl]
    exact hx.bind (Or.inl rfl)
  | le => exact hx
  | ge => exact hx
  | lt =>
    rw [sets, if_neg (Nat.lt_irrefl _)]
    exact Or.inl rfl
  | gt =>
    rw [sets, if_neg (Nat.lt_irrefl _)]
    exact Or.inl rfl

/-! ## One level -/

/-- The order of two dicts, where the operator asks for it. -/
theorem dispatch_dicts {x y : List Entry} (hs : h.find? s = some (.dict x))
    (ht : h.find? t = some (.dict y)) (hop : op.isEquality = false) :
    (dispatch h .total levels judge (.ref s) (.ref t) op).result =
      (op.holds <$> dictOrder judge x y).result := by
  have hopen : (typeRule h levels judge (.ref s) (.ref t) op).result = .ok none := by
    rw [typeRule_contents hs ht (.dict x y), payloadRule, hop]
    rfl
  have hthree : (threeWayRule h .total levels judge (.ref s) (.ref t) op).result =
      (some <$> op.holds <$> dictOrder judge x y).result := by
    rw [threeWayRule, result_look_bind (Heap.read_eq_ok_iff.2 hs),
      result_look_bind (Heap.read_eq_ok_iff.2 ht), Functor.map_map, map_eq_pure_bind]
  have htypes : (Payload.dict x).typeRef = (Payload.dict y).typeRef := rfl
  rw [dispatch, result_look_bind (Heap.typeOf_ref hs), result_look_bind (Heap.typeOf_ref ht),
    if_pos htypes, result_decideOr_of_none hopen]
  exact result_decideOr_of_map hthree

/-- Dicts that mirror each other are found equal. -/
theorem dispatch_of_dicts (hc : h.Coherent) {x y : List Entry} (hs : h.find? s = some (.dict x))
    (ht : h.find? t = some (.dict y)) (hxy : (Payload.dict x).Mirrors h (.dict y))
    (hop : mode = .total ∨ op.isEquality = true) :
    Settled (dispatch h mode levels (within h mode levels) (.ref s) (.ref t) op)
      (op.holds .eq) := by
  have hforms (n : Nat) : x.map (h.entryForm n) = y.map (h.entryForm n) := by
    have hparts := hxy.parts n
    simp only [Payload.copiedParts, List.map_map] at hparts
    exact Payload.entryForms_eq hxy.keys hparts
  have hlength : x.length = y.length := by
    simpa using congrArg List.length (hforms 0)
  have hsame : ∀ e ∈ x, Settled (differs (within h mode levels) e y) false := fun e he =>
    differs_of_mem hc hs ht he fun n => hforms n ▸ List.mem_map_of_mem he
  cases hequality : op.isEquality with
  | true =>
    have hrule : payloadRule (within h mode levels) op (.dict x) (.dict y) =
        some <$> (· == (op == .eq)) <$> dictsEqual (within h mode levels) x y := by
      rw [payloadRule, if_pos hequality, Functor.map_map]
    have hholds : (true == (op == .eq)) = op.holds .eq := by
      rcases Operator.isEquality_iff.1 hequality with rfl | rfl <;> rfl
    rw [Settled, dispatch_eq_contents hs ht (.dict x y) hrule, ← hholds]
    exact (dictsEqual_of_same hlength hsame).map _
  | false =>
    obtain rfl := hop.resolve_right (by simp [hequality])
    rw [Settled, dispatch_dicts hs ht hequality]
    exact (dictOrder_of_same hlength hsame).map _

/-- **Contents that mirror each other are found equal**, or there are too few levels. -/
theorem dispatch_of_mirrors (hc : h.Coherent) (hp : h.find? s = some p) (hq : h.find? t = some q)
    (hrebuilt : p.isRebuilt = true) (hpq : p.Mirrors h q)
    (hop : mode = .total ∨ op.isEquality = true) :
    Settled (dispatch h mode levels (within h mode levels) (.ref s) (.ref t) op)
      (op.holds .eq) := by
  have hx (v : Value) (hv : v ∈ p.parts) : h.Names v := hc.closed.names hp hv
  have hy (v : Value) (hv : v ∈ q.parts) : h.Names v := hc.closed.names hq hv
  have hkind := hpq.kind
  cases p with
  | list xs =>
    cases q with
    | list ys =>
      rw [Settled, dispatch_eq_contents hp hq (.list xs ys) rfl]
      exact sequences_of_ties (ties_of_forms hc hx hy hpq.parts)
    | _ => simp [Payload.kindName] at hkind
  | tuple xs =>
    cases q with
    | tuple ys =>
      rw [Settled, dispatch_eq_contents hp hq (.tuple xs ys) rfl]
      exact sequences_of_ties (ties_of_forms hc hx hy hpq.parts)
    | _ => simp [Payload.kindName] at hkind
  | dict x =>
    cases q with
    | dict y => exact dispatch_of_dicts hc hp hq hpq hop
    | _ => simp [Payload.kindName] at hkind
  | set x =>
    cases q with
    | set y =>
      obtain rfl : y = x := hpq.keys
      rw [Settled, dispatch_eq_contents hp hq (.set y y) rfl]
      exact sets_refl (isSubset_refl hc hp)
    | _ => simp [Payload.kindName] at hkind
  | _ => cases hrebuilt

/-- The same with the level that the two take themselves. -/
theorem within_of_mirrors (hc : h.Coherent) (hp : h.find? s = some p) (hq : h.find? t = some q)
    (hrebuilt : p.isRebuilt = true) (hpq : p.Mirrors h q)
    (hop : mode = .total ∨ op.isEquality = true) :
    Settled (within h mode levels (.ref s) (.ref t) op) (op.holds .eq) := by
  cases levels with
  | zero => exact Or.inr rfl
  | succ levels => exact dispatch_of_mirrors hc hp hq hrebuilt hpq hop

end Compare

/-! ## Copies in all that can come about -/

/-- The comparison says that the two are equal, or reports that they are nested too deeply. -/
def Heap.Ties (h : Heap) (mode : Mode) (a b : Value) (op : Operator) : Prop :=
  (richCompare mode a b op h).result = .ok (op.holds .eq) ∨
    (richCompare mode a b op h).result = .error (.error (.raised .comparisonTooDeep))

theorem Heap.ties_of_mirrors {h : Heap} {s t : Slot} {p q : Payload} {mode : Mode} {op : Operator}
    (hc : h.Coherent) (hp : h.find? s = some p) (hq : h.find? t = some q)
    (hrebuilt : p.isRebuilt = true) (hpq : p.Mirrors h q)
    (hop : mode = .total ∨ op.isEquality = true) : h.Ties mode (.ref s) (.ref t) op := by
  refine (Compare.within_of_mirrors hc hp hq hrebuilt hpq hop).imp
    Action.result_consult_eq_ok.2 fun hdeep => ?_
  rw [richCompare, Action.result_consult, hdeep]
  rfl

/-- **A deep copy compares equal to what was copied.**  Whatever is in a list, a tuple, a dict or a
set, a NaN or a complex number included, every operator of total mode says of it and its copy, in
either order, what it says of equal values, unless the two are nested too deeply to be compared.  In
strict mode `==` and `!=` do. -/
theorem deepCopy_compares_equal {budget : Budget} {c : Custody} (hc : Reachable budget c)
    {s : Slot} {p : Payload} {w : Value} (hp : c.heap.find? s = some p)
    (hrebuilt : p.isRebuilt = true) (hw : (deepCopy (.ref s) c.heap).result = .ok w) :
    (∀ op, (deepCopy (.ref s) c.heap).heap.Ties .total (.ref s) w op ∧
        (deepCopy (.ref s) c.heap).heap.Ties .total w (.ref s) op) ∧
      ∀ op, op.isEquality = true →
        (deepCopy (.ref s) c.heap).heap.Ties .strict (.ref s) w op ∧
          (deepCopy (.ref s) c.heap).heap.Ties .strict w (.ref s) op := by
  have hs := hc.sound
  have hnames : c.heap.Names (.ref s) := by
    rintro _ ⟨⟩
    exact hp ▸ rfl
  obtain ⟨fresh, shared, -, hgrown, hcopied⟩ := copies_deepCopy hs.closed hs.free hnames hw
  have hcoherent := ((lands_deepCopy hs hnames).of_ok hw).sound.coherent
  have hkept := hgrown.keeps
  cases hcopied with
  | immediate hslot => cases hslot
  | leaf hp' hleaf =>
    cases hp.symm.trans hp'
    exact absurd (hrebuilt.symm.trans hleaf) (by decide)
  | @rebuilt _ t _ q _ _ _ _ _ _ hp' hnew hq _ hkind hlength hkeys hparts =>
    cases hp.symm.trans hp'
    have hmirrors : p.Mirrors (deepCopy (.ref s) c.heap).heap q :=
      ⟨hkind, hkeys, hparts.form_eq hkept⟩
    have hrebuilt' := (Payload.isRebuilt_eq hkind).trans hrebuilt
    have hties {mode : Mode} {op : Operator} (hop : mode = .total ∨ op.isEquality = true) :
        (deepCopy (.ref s) c.heap).heap.Ties mode (.ref s) (.ref t) op ∧
          (deepCopy (.ref s) c.heap).heap.Ties mode (.ref t) (.ref s) op :=
      ⟨Heap.ties_of_mirrors hcoherent (hkept s p hp) hq hrebuilt hmirrors hop,
        Heap.ties_of_mirrors hcoherent hq (hkept s p hp) hrebuilt' hmirrors.symm hop⟩
    exact ⟨fun op => hties (Or.inl rfl), fun op hop => hties (Or.inr hop)⟩

/-- A list holds a NaN and a dict with a complex number under its only key. -/
theorem deepCopy_compares_equal_nan :
    ∃ c : Custody, Reachable .untracked c ∧
      c.heap.find? 2 = some (.list [.float ⟨0x7ff8000000000000⟩, .ref 1]) ∧
      c.heap.find? 1 = some (.dict [⟨⟨.int 1, 1⟩, .ref 0⟩]) ∧
      c.heap.find? 0 = some (.complex ⟨0⟩ ⟨0⟩) ∧
      (deepCopy (.ref 2) c.heap).result = .ok (.ref 4) ∧
      (∀ op, (deepCopy (.ref 2) c.heap).heap.Ties .total (.ref 2) (.ref 4) op ∧
        (deepCopy (.ref 2) c.heap).heap.Ties .total (.ref 4) (.ref 2) op) ∧
      ∀ op, op.isEquality = true →
        (deepCopy (.ref 2) c.heap).heap.Ties .strict (.ref 2) (.ref 4) op ∧
          (deepCopy (.ref 2) c.heap).heap.Ties .strict (.ref 4) (.ref 2) op := by
  let o : Object := .list [.float ⟨0x7ff8000000000000⟩, .dict [(.int 1, .complex ⟨0⟩ ⟨0⟩)]]
  let c : Custody := Custody.after ⟨Heap.empty .untracked, 0⟩ (.build o) [.ref 2]
  have hc : Reachable .untracked c :=
    .result [.ref 2] .start (Request.permitted_build o _) (by decide +kernel)
  have hlist : c.heap.find? 2 = some (.list [.float ⟨0x7ff8000000000000⟩, .ref 1]) := by
    decide +kernel
  have hcopy : (deepCopy (.ref 2) c.heap).result = .ok (.ref 4) := by decide +kernel
  exact ⟨c, hc, hlist, by decide +kernel, by decide +kernel, hcopy,
    deepCopy_compares_equal hc hlist rfl hcopy⟩

end ValueHeap
