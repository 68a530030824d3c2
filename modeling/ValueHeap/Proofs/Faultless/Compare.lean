import ValueHeap.Proofs.Compare.Stops
import ValueHeap.Proofs.Faultless.Types

/-!
# Comparing values in a coherent heap

A comparison looks at the two values, at their parts and at the keys stored in them.  All of these
are in use, so it ends in a result or in an error that it reports.

## What is here

* `Compare.FaultlessJudge` — a judge that meets no fault on values in use.
* `Compare.position_faultless` — a lookup with such a judge.
* `Compare.dispatch_faultless` — one level, for a judge of the parts that meets none.
* `Compare.within_faultless` and `Compare.fallback_faultless` — rich comparison and the fallback.
-/

set_option autoImplicit false

namespace ValueHeap

/-- What stops without a fault. -/
def Halt.IsError (e : Halt) : Prop := ∀ f levels, e ≠ .fault f levels

theorem Answer.faultless_iff {α : Type} {x : Answer α} :
    x.Faultless ↔ x.Stops Halt.IsError := by
  constructor
  · intro hx e he f levels hf
    exact hx f levels (he.trans (congrArg _ hf))
  · intro hx f levels he
    exact hx _ he f levels rfl

namespace Compare

open Answer

variable {h : Heap} {judge : Judge} {levels : Nat} {a b : Value} {op : Operator}

/-- A judge meets no fault on values in use. -/
def FaultlessJudge (h : Heap) (judge : Judge) : Prop :=
  ∀ a b op, h.Names a → h.Names b → (judge a b op).Faultless

/-- A lookup among keys in use. -/
theorem position_faultless (hj : FaultlessJudge h judge) {wanted : HashedKey}
    {stored : List HashedKey} (hw : h.Names wanted.value) (hs : ∀ k ∈ stored, h.Names k.value) :
    (position judge wanted stored).Faultless := by
  refine faultless_iff.2 (stops_iff.2 ?_)
  refine position_matches (V := fun x x' => x = x' ∧ h.Names x) ?_ ⟨⟨rfl, hw⟩, rfl⟩
    (List.forall₂_same.2 fun k hk => ⟨⟨rfl, hs k hk⟩, rfl⟩)
  rintro x x' y y' ⟨rfl, hx⟩ ⟨rfl, hy⟩
  exact sameOrEqual_matches Iff.rfl (stops_iff.1 (faultless_iff.1 (hj x y .eq hx hy)))

/-! ## What is in a closed heap -/

/-- The keys and the values of a dict name slots in use. -/
def EntriesIn (h : Heap) (entries : List Entry) : Prop :=
  ∀ e ∈ entries, h.Names e.key.value ∧ h.Names e.value

section Closed

variable {s : Slot}

theorem entriesIn_of_closed {entries : List Entry} (hc : h.Closed)
    (hp : h.find? s = some (.dict entries)) : EntriesIn h entries := by
  intro e he
  exact ⟨hc.names hp (List.mem_flatMap.2 ⟨e, he, by simp [Entry.parts]⟩),
    hc.names hp (List.mem_flatMap.2 ⟨e, he, by simp [Entry.parts]⟩)⟩

theorem elementsIn_of_closed {elements : List HashedKey} (hc : h.Closed)
    (hp : h.find? s = some (.set elements)) : ∀ k ∈ elements, h.Names k.value :=
  fun _ hk => hc.names hp (List.mem_map_of_mem hk)

end Closed

theorem exists_numberOf (ha : h.Names a) : ∃ n, numberOf h a = .ok n := by
  cases a with
  | ref s =>
    obtain ⟨p, hp, -⟩ := Heap.exists_read ha
    rw [numberOf, hp]
    exact ⟨_, rfl⟩
  | _ => exact ⟨_, rfl⟩

/-- A value in use is its own counterpart, with parts in use. -/
theorem counterpart_of_names {l : Leeway} (hc : h.Closed) (ha : h.Names a) :
    Counterpart l (fun x x' => x = x' ∧ h.Names x) h levels h levels a a := by
  cases a with
  | ref s =>
    obtain ⟨p, hread, hp⟩ := Heap.exists_read ha
    exact .slot (.look hread hread ⟨.refl fun x hx => ⟨rfl, hc.names hp hx⟩, fun _ => rfl⟩)
  | _ => exact .immediate rfl

/-! ## The fallback, one level and all of them -/

theorem exists_typeOrder {first second : TypeRef} (hfirst : h.GoodType first)
    (hsecond : h.GoodType second) : ∃ o, typeOrder h first second = .ok o := by
  obtain ⟨left, hleft⟩ := Heap.exists_nameOfType hfirst
  obtain ⟨right, hright⟩ := Heap.exists_nameOfType hsecond
  rw [typeOrder]
  split
  · exact ⟨_, rfl⟩
  · split
    · exact ⟨_, rfl⟩
    · split
      · exact ⟨_, rfl⟩
      · exact ⟨_, rfl⟩
      · exact ⟨_, rfl⟩
      · rw [hleft, hright]
        simp only [bind, Except.bind]
        cases compare left right with
        | lt => exact ⟨_, rfl⟩
        | eq => exact ⟨_, rfl⟩
        | gt => exact ⟨_, rfl⟩

theorem exists_fallbackOrder (hc : h.Coherent) (ha : h.Names a) (hb : h.Names b) :
    ∃ o, fallbackOrder h a b = .ok o := by
  obtain ⟨first, hfirst, hgood⟩ := Heap.exists_typeOf hc ha
  obtain ⟨second, hsecond, hgood'⟩ := Heap.exists_typeOf hc hb
  rw [fallbackOrder]
  split
  · exact ⟨_, rfl⟩
  · by_cases heq : first = second
    · exact ⟨_, bind_eq_ok.2 ⟨first, hfirst, bind_eq_ok.2 ⟨second, hsecond, if_pos heq⟩⟩⟩
    · obtain ⟨o, ho⟩ := exists_typeOrder hgood hgood'
      exact ⟨o, bind_eq_ok.2 ⟨first, hfirst, bind_eq_ok.2 ⟨second, hsecond,
        (if_neg heq).trans ho⟩⟩⟩

/-- The fallback meets no fault. -/
theorem fallback_faultless (hc : h.Coherent) (mode : Mode) (levels : Nat) (op : Operator)
    (ha : h.Names a) (hb : h.Names b) : (fallback h mode levels a b op).Faultless := by
  simp only [fallback]
  cases mode with
  | total =>
    obtain ⟨⟨rule, o⟩, ho⟩ := exists_fallbackOrder hc ha hb
    exact (Faultless.look ho).bind fun found _ => (Faultless.report _).bind fun _ _ => .pure _
  | strict =>
    obtain ⟨left, hleft⟩ := Heap.exists_typeName hc ha
    obtain ⟨right, hright⟩ := Heap.exists_typeName hc hb
    show (if op.isEquality = true then _ else _ : Answer Bool).Faultless
    split
    · exact (Faultless.report _).bind fun _ _ => .pure _
    · exact (Faultless.look hleft).bind fun _ _ =>
        (Faultless.look hright).bind fun _ _ => .raise _

/-- One level meets no fault if the judge of the parts meets none. -/
theorem dispatch_faultless (hc : h.Coherent) (hj : FaultlessJudge h judge) (mode : Mode)
    (levels : Nat) (op : Operator) (ha : h.Names a) (hb : h.Names b) :
    (dispatch h mode levels judge a b op).Faultless := by
  have hlast := fallback_faultless hc mode levels op ha hb
  refine faultless_iff.2 (dispatch_stops (counterpart_of_names hc.closed ha)
    (counterpart_of_names hc.closed hb) ?_ (fun _ _ _ _ _ _ => nofun) (faultless_iff.1 hlast) ?_)
  · intro s t _ ht
    obtain ⟨second, hsecond, hgood⟩ := Heap.exists_typeOf hc hb
    obtain rfl : t = second := Except.ok.inj (ht.symm.trans hsecond)
    obtain ⟨below, hbelow⟩ := Heap.exists_isSubtype (t := s) hc hgood
    exact faultless_iff.1 (Faultless.look hbelow)
  · exact fun x y op' hx hy _ => faultless_iff.1 (hj x y op' hx hy)

/-- **Rich comparison of values in use meets no fault.** -/
theorem within_faultless (hc : h.Coherent) (mode : Mode) (n : Nat) :
    FaultlessJudge h (within h mode n) := by
  induction n with
  | zero =>
    intro a b op ha hb
    rw [within]
    simp only [unlessInts]
    split
    · exact .pure _
    · exact .refuse _ _
  | succ n ih =>
    intro a b op ha hb
    rw [within]
    simp only [unlessInts]
    split
    · exact .pure _
    · exact dispatch_faultless hc ih mode n op ha hb

end Compare

end ValueHeap
