import Mathlib.Data.Option.NAry
import ValueHeap.Fingerprint
import ValueHeap.Proofs.Fingerprint.Rearranged

/-!
# Fingerprints of values that are rearranged

The fingerprint of a container is that of its parts folded with exclusive or, and it is missing as
soon as that of one part is.  Neither can tell in which order the parts stand.  So the fingerprints
of values that are rearranged are the same, or both are missing; with one level less to go for the
parts, this follows the levels.

When a fingerprint is missing, the reason may be another one, since the first part to fail is
reported.

## What is here

* `Answer.value?` — the result of an answer, whatever the reason if there is none.
* `Fingerprint.foldEntries_eq_fold` — keys and values are folded like any parts.
* `Fingerprint.value?_fold_eq` — **the order of parts does not show**.
* `Fingerprint.value?_ofValue_eq` and `Fingerprint.within_eq_of_rearranged` — one level, and all.
-/

set_option autoImplicit false

namespace ValueHeap

/-! ## Results of answers -/

namespace Answer

variable {α β : Type}

/-- The result, if there is one. -/
def value? (x : Answer α) : Option α := x.result.toOption

theorem value?_bind (x : Answer α) (f : α → Answer β) :
    (x >>= f).value? = x.value?.bind fun a => (f a).value? := by
  rw [value?, value?, result_bind]
  cases x.result <;> rfl

theorem value?_look_bind {levels : Nat} {x : Except Fault α} {a : α} (hx : x = .ok a)
    (f : α → Answer β) : (look levels x >>= f).value? = (f a).value? := by
  rw [value?, value?, result_look_bind hx]

/-- What always raises an error in the end has no result. -/
theorem value?_bind_raise (x : Answer β) (c : β → Cause) :
    (x >>= fun b => (raise (c b) : Answer α)).value? = none := by
  rw [value?_bind]
  exact Option.bind_fun_none _

end Answer

namespace Fingerprint

/-! ## Parts in any order -/

/-- Keys and the values under them are folded one after the other. -/
theorem foldEntries_eq_fold (part : Value → Answer Int64) (acc : Int64) (entries : List Entry) :
    foldEntries part acc entries = fold part acc (entries.flatMap Entry.parts) := by
  induction entries generalizing acc with
  | nil => rfl
  | cons e rest ih =>
    simp only [foldEntries, List.flatMap_cons, Entry.parts, List.cons_append, List.nil_append, fold,
      ih, Int64.xor_assoc]

/-- Two words, if both are there. -/
def combine : Option Int64 → Option Int64 → Option Int64 := Option.map₂ (· ^^^ ·)

theorem combine_right_comm (a b c : Option Int64) :
    combine (combine a b) c = combine (combine a c) b :=
  Option.map₂_right_comm fun x y z => by rw [Int64.xor_assoc, Int64.xor_comm y, ← Int64.xor_assoc]

theorem foldl_combine_none (words : List (Option Int64)) : words.foldl combine none = none := by
  induction words with
  | nil => rfl
  | cons word rest ih => exact ih

/-- The words of parts are combined, and all are there or there is no result. -/
theorem value?_fold (part : Value → Answer Int64) (acc : Int64) (values : List Value) :
    (fold part acc values).value? =
      (values.map fun v => (part v).value?).foldl combine (some acc) := by
  induction values generalizing acc with
  | nil => rfl
  | cons v rest ih =>
    rw [fold, Answer.value?_bind, List.map_cons, List.foldl_cons]
    cases (part v).value? with
    | none => exact (foldl_combine_none _).symm
    | some word => exact ih (acc ^^^ word)

variable {part part' : Value → Answer Int64}

/-- **The order of parts does not show.** -/
theorem value?_fold_eq {xs ys zs : List Value} (hperm : zs.Perm xs)
    (hparts : List.Forall₂ (fun z y => (part z).value? = (part' y).value?) zs ys) (acc : Int64) :
    (fold part acc xs).value? = (fold part' acc ys).value? := by
  rw [value?_fold, value?_fold, ← map_eq_map_iff.2 hparts]
  exact (hperm.symm.map _).foldl_eq' (fun x _ y _ z => combine_right_comm z x y) (some acc)

/-! ## One level -/

variable {h k : Heap} {inside inside' : Option (Value → Answer Int64)} {v w : Value} {n : Nat}

/-- Two ways to look at parts, if they are looked at, that come to the same for these parts. -/
def SameParts (inside inside' : Option (Value → Answer Int64)) (xs ys : List Value) : Prop :=
  Option.Rel (fun part part' => ∀ acc, (fold part acc xs).value? = (fold part' acc ys).value?)
    inside inside'

theorem SameParts.contents_eq {xs ys : List Value} (hparts : SameParts inside inside' xs ys)
    (acc : Int64) :
    (ofValue.contents h inside fun part => fold part acc xs).value? =
      (ofValue.contents k inside' fun part => fold part acc ys).value? := by
  cases hparts with
  | some hfold => exact hfold acc
  | none => rfl

/-- The fingerprints of values that resemble each other are the same if their parts come to the
same. -/
theorem value?_ofValue_eq (hdigits : h.budget.digitLimit = k.budget.digitLimit)
    (hvw : h.Resembles k v w)
    (hparts : SameParts inside inside' (h.groupsOf v).flatten (k.groupsOf w).flatten) :
    (ofValue h n inside v).value? = (ofValue k n inside' w).value? := by
  cases hvw with
  | immediate hv =>
    cases v with
    | ref s => cases hv
    | int i => rw [ofValue, ofValue, hdigits]
    | _ => rfl
  | contents hp hq hpq =>
    rw [Heap.groupsOf_ref hp, Heap.groupsOf_ref hq, Payload.flatten_groups,
      Payload.flatten_groups] at hparts
    rw [ofValue, ofValue, Answer.value?_look_bind (Heap.read_eq_ok_iff.2 hp),
      Answer.value?_look_bind (Heap.read_eq_ok_iff.2 hq)]
    cases hpq with
    | longInt i => rw [hdigits]
    | list | tuple | set => exact hparts.contents_eq _
    | dict =>
      simp only [foldEntries_eq_fold]
      exact hparts.contents_eq _
    | userInstance => simp only [Answer.value?_bind_raise]
    | _ => rfl

/-! ## All levels -/

/-- **Values that are rearranged have the same fingerprint**, or none of them has one. -/
theorem within_eq_of_rearranged (hdigits : h.budget.digitLimit = k.budget.digitLimit)
    (hvw : h.RearrangedTo k n v w) : (within h n v).value? = (within k n w).value? := by
  induction n generalizing v w with
  | zero => exact value?_ofValue_eq hdigits hvw .none
  | succ n ih =>
    obtain ⟨hroot, groups, hperm, hgroups⟩ := hvw
    refine value?_ofValue_eq hdigits hroot (.some fun acc => value?_fold_eq hperm.flatten ?_ acc)
    exact (List.rel_flatten hgroups).imp fun _ _ hparts => ih hparts

end Fingerprint

end ValueHeap
