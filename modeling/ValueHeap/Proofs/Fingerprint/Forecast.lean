import ValueHeap.Proofs.DigitLimit
import ValueHeap.Proofs.Faultless.Walks
import ValueHeap.Proofs.Fingerprint.Within
import ValueHeap.Proofs.Foretold

/-!
# What a fingerprint will come to

A fingerprint only looks at the heap, so all that it comes to but the word itself is told by a tour
through the value.  An integer is looked at before anything else is asked of it: with too many
digits it is not written, and the error of that is reported and ignored, whatever comes after.

## What is here

* `Answer.outline` — an answer but for its result.
* `Heap.Unwritable` — an integer with too many digits, and `Fingerprint.visit`, which reports it.
* `Fingerprint.outline_within` — **a fingerprint is as the tour tells**.
-/

set_option autoImplicit false

namespace ValueHeap

/-! ## Answers but for their results -/

namespace Answer

variable {α β : Type}

/-- What an answer reports, and how it ends. -/
def outline (x : Answer α) : Answer Unit := ⟨x.events, x.result.map fun _ => ()⟩

theorem outline_bind {x : Answer α} {f : α → Answer β} {told : Answer Unit}
    (hf : ∀ a, (f a).outline = told) : (x >>= f).outline = x.outline >>= fun _ => told := by
  obtain ⟨es, r⟩ := x
  cases r with
  | error e => rfl
  | ok a =>
    rw [← hf a]
    rfl

theorem outline_look_bind {levels : Nat} {x : Except Fault α} {a : α} (hx : x = .ok a)
    (f : α → Answer β) : (look levels x >>= f).outline = (f a).outline := by
  rw [hx]
  exact congrArg outline (pure_bind a f)

end Answer

/-- An answer that an operation is run with tells what it comes to. -/
theorem Action.follows_consult {α : Type} {f : Heap → Nat → Answer α} {h : Heap}
    (hf : (f h h.levelsLeft).Faultless) :
    (consult f h).Follows (fun _ _ => True) (f h h.levelsLeft).outline := by
  rw [consult]
  generalize f h h.levelsLeft = answer at hf ⊢
  obtain ⟨es, (e | ⟨fault, levels⟩) | a⟩ := answer
  · exact ⟨rfl, rfl⟩
  · exact absurd rfl (hf fault levels)
  · exact ⟨rfl, rfl, trivial⟩

/-! ## The tour -/

/-- The integer that a value is. -/
def Heap.integer? (h : Heap) : Value → Option Int
  | .int n => some n.toInt
  | .ref s =>
    match h.find? s with
    | some (.longInt n) => some n
    | _ => none
  | _ => none

/-- The value is an integer with more digits than the limit allows. -/
def Heap.Unwritable (h : Heap) (v : Value) : Prop :=
  ∃ n most, h.integer? v = some n ∧ h.budget.digitLimit = some most ∧ most < Decimal.digitCount n

/-- An integer with too many digits is one without a text. -/
theorem Heap.unwritable_iff {h : Heap} {v : Value} :
    h.Unwritable v ↔
      (h.integer? v).any fun n => (Decimal.text? h.budget.digitLimit n).isNone := by
  simp only [Option.any_eq_true, Option.isNone_iff_eq_none, Decimal.text?_eq_none_iff]
  exact ⟨fun ⟨n, most, hn, hmost⟩ => ⟨n, hn, most, hmost⟩,
    fun ⟨n, hn, most, hmost⟩ => ⟨n, most, hn, hmost⟩⟩

instance (h : Heap) (v : Value) : Decidable (h.Unwritable v) :=
  decidable_of_iff _ Heap.unwritable_iff.symm

namespace Fingerprint

/-- Reports an integer with too many digits. -/
def note (h : Heap) (v : Value) : Answer Unit :=
  match h.integer? v with
  | some n => (ofInt h.budget.digitLimit n).outline
  | none => pure ()

/-- Reports an integer with too many digits, and then ends with what stops a fingerprint. -/
def visit (h : Heap) (levels : Nat) (v : Value) : Answer Unit := do
  note h v
  h.check .deepHash levels v

/-- What the fingerprint of a value will come to while so many levels are left. -/
def forecast (h : Heap) : Nat → Value → Answer Unit :=
  h.tour .deepHash (visit h) fun _ _ => pure ()

variable {h : Heap} {levels : Nat} {v : Value} {s : Slot} {p : Payload}
  {part : Value → Answer Int64}

theorem note_of_unwritable (hv : h.Unwritable v) :
    note h v =
      ⟨[.absorbed (.raised (.tooManyDigits (h.budget.digitLimit.getD 0)))], .ok ()⟩ := by
  obtain ⟨n, most, hn, hmost, hlt⟩ := hv
  rw [note, hn]
  simp only [ofInt, Decimal.text?_eq_none_iff.2 ⟨most, hmost, hlt⟩]
  rfl

theorem note_of_writable (hv : ¬h.Unwritable v) : note h v = pure () := by
  rw [note]
  cases hn : h.integer? v with
  | none => rfl
  | some n =>
    simp only [ofInt]
    cases ht : Decimal.text? h.budget.digitLimit n with
    | none =>
      obtain ⟨most, hmost, hlt⟩ := Decimal.text?_eq_none_iff.1 ht
      exact absurd ⟨n, most, hn, hmost, hlt⟩ hv
    | some text => rfl

theorem result_note (h : Heap) (v : Value) : (note h v).result = .ok () := by
  by_cases hv : h.Unwritable v
  · rw [note_of_unwritable hv]
  · rw [note_of_writable hv, Answer.result_pure]

theorem result_visit (h : Heap) (n : Nat) (v : Value) :
    (visit h n v).result = (h.check .deepHash n v).result := by
  rw [visit, Answer.bind_of_ok (result_note h v)]

/-! ## One level -/

theorem forecast_immediate (hv : v.slot? = none) : forecast h levels v = note h v := by
  rw [forecast, Heap.tour_leaf (Heap.next_eq_nil hv), visit, Heap.check_immediate hv]
  simp only [bind_pure_unit]

theorem forecast_leaf (hp : h.find? s = some p) (hrebuilt : p.isRebuilt = false)
    (hinstance : ∀ cls, p ≠ .userInstance cls) : forecast h levels (.ref s) = note h (.ref s) := by
  have hnext : h.next .deepHash (.ref s) = [] :=
    (Heap.next_ref hp).trans (StructuralOperation.partsOf_eq_nil hrebuilt)
  rw [forecast, Heap.tour_leaf hnext, visit, Heap.check_leaf hp hrebuilt hinstance]
  simp only [bind_pure_unit]

theorem note_ref (hp : h.find? s = some p) (hinteger : ∀ n, p ≠ .longInt n) :
    note h (.ref s) = pure () := by
  rw [note, Heap.integer?, hp]
  cases p with
  | longInt n => exact absurd rfl (hinteger n)
  | _ => rfl

theorem forecast_instance {cls : Slot} (levels : Nat) (hp : h.find? s = some (.userInstance cls)) :
    forecast h levels (.ref s) = Answer.raise (.unsupported .deepHash (h.className cls)) := by
  have hnext : h.next .deepHash (.ref s) = [] :=
    (Heap.next_ref hp).trans (StructuralOperation.partsOf_eq_nil rfl)
  rw [forecast, Heap.tour_leaf hnext, visit, note_ref hp nofun, Heap.check_instance hp]
  rfl

theorem forecast_refused (hp : h.find? s = some p) (hrebuilt : p.isRebuilt = true) :
    forecast h 0 (.ref s) =
      Answer.refuse h.budget.depthLimit (.resource h.budget.noLevelLeft) := by
  rw [forecast, Heap.tour, visit, note_ref hp (by rintro n rfl; cases hrebuilt),
    Heap.check_refused hp hrebuilt]
  rfl

theorem forecast_container (hp : h.find? s = some p) (hrebuilt : p.isRebuilt = true) :
    forecast h (levels + 1) (.ref s) = forM p.parts (forecast h levels) := by
  rw [forecast, Heap.tour, visit, note_ref hp (by rintro n rfl; cases hrebuilt),
    Heap.check_entered hp hrebuilt, pure_bind, pure_bind, Heap.next_ref hp,
    StructuralOperation.partsOf, if_pos hrebuilt]
  simp only [bind_pure_unit]

/-- Folding the fingerprints of parts reports what these report, in order. -/
theorem outline_fold {told : Value → Answer Unit} {values : List Value}
    (hpart : ∀ v ∈ values, (part v).outline = told v) (acc : Int64) :
    (fold part acc values).outline = forM values told := by
  induction values generalizing acc with
  | nil => rfl
  | cons v rest ih =>
    obtain ⟨hv, hrest⟩ := List.forall_mem_cons.1 hpart
    rw [fold, List.forM_cons, ← hv]
    exact Answer.outline_bind fun word => ih hrest _

/-- A way to look at parts that is there if there are levels left, and that is as it was told. -/
inductive Down (h : Heap) : Nat → Option (Value → Answer Int64) → Prop
  | refused : Down h 0 none
  | entered {n : Nat} {part : Value → Answer Int64}
      (htold : ∀ v, h.Names v → (part v).outline = forecast h n v) : Down h (n + 1) (some part)

theorem outline_ofValue (hc : h.Coherent) {inside : Option (Value → Answer Int64)}
    (hinside : Down h levels inside) (hv : h.Names v) :
    (ofValue h levels inside v).outline = forecast h levels v := by
  have hcontents {s : Slot} {p : Payload} (hp : h.find? s = some p)
      (hrebuilt : p.isRebuilt = true) (acc : Int64) :
      (ofValue.contents h inside fun part => fold part acc p.parts).outline =
        forecast h levels (.ref s) := by
    cases hinside with
    | refused =>
      rw [forecast_refused hp hrebuilt]
      rfl
    | entered htold =>
      rw [forecast_container hp hrebuilt]
      exact outline_fold (fun x hx => htold x (hc.closed.names hp hx)) acc
  cases v with
  | ref s =>
    obtain ⟨p, hread, hp⟩ := Heap.exists_read hv
    rw [ofValue, Answer.outline_look_bind hread]
    cases p with
    | longInt n =>
      rw [forecast_leaf hp rfl (by rintro cls ⟨⟩), note, Heap.integer?, hp]
    | userInstance cls =>
      rw [forecast_instance levels hp]
      exact Answer.outline_look_bind (Heap.nameOfType_instance hc.fits hp) _
    | list items => exact hcontents hp rfl _
    | tuple items => exact hcontents hp rfl _
    | set elements => exact hcontents hp rfl _
    | dict entries =>
      simp only [foldEntries_eq_fold]
      exact hcontents hp rfl _
    | _ =>
      rw [forecast_leaf hp rfl (by rintro cls ⟨⟩), note_ref hp (by rintro n ⟨⟩)]
      rfl
  | int n =>
    rw [forecast_immediate rfl]
    rfl
  | _ =>
    rw [forecast_immediate rfl]
    rfl

/-- **With any number of levels left, a fingerprint is as the tour tells.** -/
theorem outline_within (hc : h.Coherent) (n : Nat) (hv : h.Names v) :
    (within h n v).outline = forecast h n v := by
  induction n generalizing v with
  | zero => exact outline_ofValue hc .refused hv
  | succ n ih => exact outline_ofValue hc (.entered fun v hv => ih hv) hv

end Fingerprint

/-- **A fingerprint is as the tour tells** from the heap that it looks at. -/
theorem follows_deepHash {h : Heap} {v : Value} (hc : h.Coherent) (hv : h.Names v) :
    (deepHash v h).Follows (fun _ _ => True) (Fingerprint.forecast h h.levelsLeft v) := by
  rw [← Fingerprint.outline_within hc h.levelsLeft hv]
  exact Action.follows_consult (Fingerprint.within_faultless hc h.levelsLeft hv)

end ValueHeap
