import Mathlib.Data.List.Perm.Subperm
import ValueHeap.Proofs.Compare.Settles

/-!
# Dicts and sets by their forms

A key is looked for among the stored keys with its hash, by a judge that is trusted with equality.
Since keys that are alike have the same hash, nothing is missed by looking at the hash first: what
is found is alike, and what is not found is apart from every stored key.  It follows that dicts and
sets are compared by the forms of what they hold, whatever the order in which it went in.

## What is here

* `Compare.position_some` and `Compare.position_none` — what a lookup tells.
* `Compare.differs_settles` — an entry is in another dict when its form is among those there.
* `Compare.dictsEqual_settles` — two dicts are equal when the forms of their entries are the same.
* `Compare.isSubset_settles` and `Compare.setsEqual_settles` — the same for sets.
-/

set_option autoImplicit false

namespace ValueHeap

open Filter

theorem Form.pair_inj {a b c d : Form} : pair a b = pair c d ↔ a = c ∧ b = d := by
  simp [pair]

namespace Heap

/-- The form of an entry. -/
def entryForm (h : Heap) (n : Nat) (e : Entry) : Form :=
  .pair (h.form n e.key.value) (h.form n e.value)

/-- The form of a key. -/
def keyForm (h : Heap) (n : Nat) (k : HashedKey) : Form := h.form n k.value

variable {h : Heap}

/-- Stored keys have different forms from some depth on. -/
theorem KeysFit.eventually_apart {keys : List HashedKey} (hk : h.KeysFit keys) :
    ∀ᶠ n in atTop, keys.Pairwise fun k l => h.keyForm n k ≠ h.keyForm n l :=
  eventually_pairwise hk.apart

theorem KeysFit.eventually_nodup {keys : List HashedKey} (hk : h.KeysFit keys) :
    ∀ᶠ n in atTop, (keys.map (h.keyForm n)).Nodup :=
  hk.eventually_apart.mono fun _ hn => List.pairwise_map.2 hn

theorem KeysFit.eventually_nodup_entries {entries : List Entry}
    (hk : h.KeysFit (entries.map Entry.key)) :
    ∀ᶠ n in atTop, (entries.map (h.entryForm n)).Nodup := by
  filter_upwards [hk.eventually_apart] with n hn
  rw [List.pairwise_map] at hn
  refine List.pairwise_map.2 (hn.imp fun hne heq => hne ?_)
  exact (Form.pair_inj.1 heq).1

/-- Entries of a dict whose keys have the same form are one entry. -/
theorem KeysFit.eventually_unique {entries : List Entry}
    (hk : h.KeysFit (entries.map Entry.key)) :
    ∀ᶠ n in atTop, ∀ e ∈ entries, ∀ f ∈ entries,
      h.keyForm n e.key = h.keyForm n f.key → e = f := by
  filter_upwards [hk.eventually_apart] with n hn e he f hf heq
  rw [List.pairwise_map] at hn
  by_contra hne
  have hsymm : Std.Symm fun e f : Entry => h.keyForm n e.key ≠ h.keyForm n f.key :=
    ⟨fun _ _ => Ne.symm⟩
  exact hn.forall he hf hne heq

end Heap

namespace Compare

variable {h : Heap} {judge : Judge}

/-! ## Lookup -/

/-- A lookup stops at the first key, or goes on behind it. -/
theorem position_cons {wanted k : HashedKey} {rest : List HashedKey} {o : Option Nat}
    (hr : (position judge wanted (k :: rest)).result = .ok o) :
    (o = some 0 ∧ k.hash = wanted.hash ∧
        (sameOrEqual judge k.value wanted.value).result = .ok true) ∨
      ∃ place, o = place.map (· + 1) ∧ (position judge wanted rest).result = .ok place ∧
        (k.hash = wanted.hash → (sameOrEqual judge k.value wanted.value).result = .ok false) := by
  rw [position, Answer.result_ite_bind_eq_ok] at hr
  obtain ⟨found, hfound, hr⟩ := hr
  beta_reduce at hr
  cases found with
  | true =>
    rw [if_pos rfl, Answer.result_pure_eq_ok] at hr
    split at hfound
    · next heq => exact Or.inl ⟨hr.symm, heq, hfound⟩
    · cases hfound
  | false =>
    rw [if_neg Bool.false_ne_true, Answer.result_bind_eq_ok] at hr
    obtain ⟨place, hplace, hr⟩ := hr
    rw [Answer.result_pure_eq_ok] at hr
    refine Or.inr ⟨place, hr.symm, hplace, fun heq => ?_⟩
    rwa [if_pos heq] at hfound

/-- What a lookup finds is alike. -/
theorem position_some {wanted : HashedKey} {stored : List HashedKey} {i : Nat}
    (hj : EqSound h judge) (hr : (position judge wanted stored).result = .ok (some i)) :
    ∃ k, stored[i]? = some k ∧ h.Alike k.value wanted.value := by
  induction stored generalizing i with
  | nil =>
    rw [position, Answer.result_pure_eq_ok] at hr
    cases hr
  | cons k rest ih =>
    rcases position_cons hr with ⟨hi, -, hsame⟩ | ⟨place, hi, hplace, -⟩
    · cases hi
      exact ⟨k, rfl, Heap.settles_eq_true.1 (sameOrEqual_settles hj hsame)⟩
    · cases place with
      | none => cases hi
      | some j =>
        cases hi
        exact ih hplace

/-- What a lookup does not find is apart from every stored key. -/
theorem position_none {wanted : HashedKey} {stored : List HashedKey} (hj : EqSound h judge)
    (hw : h.Hashes wanted.value wanted.hash) (hs : ∀ k ∈ stored, h.Hashes k.value k.hash)
    (hr : (position judge wanted stored).result = .ok none) :
    ∀ k ∈ stored, h.Apart k.value wanted.value := by
  induction stored with
  | nil => simp
  | cons k rest ih =>
    rcases position_cons hr with ⟨hi, -, -⟩ | ⟨place, hi, hplace, hother⟩
    · cases hi
    · rw [Option.map_eq_none_iff.1 hi.symm] at hplace
      refine List.forall_mem_cons.2 ⟨?_, ih (fun l hl => hs l (List.mem_cons_of_mem k hl)) hplace⟩
      by_cases heq : k.hash = wanted.hash
      · exact Heap.settles_eq_false.1 (sameOrEqual_settles hj (hother heq))
      · exact Heap.eventually_form_ne (hs k List.mem_cons_self) hw heq

theorem contains_settles {wanted : HashedKey} {stored : List HashedKey} {r : Bool}
    (hj : EqSound h judge) (hw : h.Hashes wanted.value wanted.hash)
    (hs : ∀ k ∈ stored, h.Hashes k.value k.hash)
    (hr : (contains judge wanted stored).result = .ok r) :
    ∀ᶠ n in atTop, (r = true ↔ h.keyForm n wanted ∈ stored.map (h.keyForm n)) := by
  rw [contains, Answer.result_bind_eq_ok] at hr
  obtain ⟨place, hplace, hr⟩ := hr
  rw [Answer.result_pure_eq_ok] at hr
  subst hr
  cases place with
  | some i =>
    obtain ⟨k, hk, halike⟩ := position_some hj hplace
    filter_upwards [halike] with n hn
    simp only [Option.isSome_some, List.mem_map, true_iff]
    exact ⟨k, List.mem_of_getElem? hk, hn⟩
  | none =>
    have hapart := position_none hj hw hs hplace
    filter_upwards [eventually_forall_mem hapart] with n hn
    simp only [Option.isSome_none, Bool.false_eq_true, List.mem_map, false_iff]
    rintro ⟨k, hk, heq⟩
    exact hn k hk heq

/-! ## Dicts -/

/-- An entry differs from a dict when its form is not among those of the dict. -/
theorem differs_settles {e : Entry} {other : List Entry} {r : Bool} (hj : EqSound h judge)
    (he : h.Hashes e.key.value e.key.hash) (ho : h.KeysFit (other.map Entry.key))
    (hr : (differs judge e other).result = .ok r) :
    ∀ᶠ n in atTop, (r = true ↔ h.entryForm n e ∉ other.map (h.entryForm n)) := by
  rw [differs, Answer.result_bind_eq_ok] at hr
  obtain ⟨found, hfound, hr⟩ := hr
  rw [valueUnder, Answer.result_bind_eq_ok] at hfound
  obtain ⟨place, hplace, hfound⟩ := hfound
  rw [Answer.result_pure_eq_ok] at hfound
  subst hfound
  cases place with
  | none =>
    have hapart := position_none hj he ho.hashes hplace
    rw [Option.bind_none, Answer.result_pure_eq_ok] at hr
    subst hr
    filter_upwards [eventually_forall_mem hapart] with n hn
    simp only [List.mem_map, true_iff]
    rintro ⟨f, hf, heq⟩
    exact hn f.key (List.mem_map_of_mem hf) (Form.pair_inj.1 heq).1
  | some i =>
    obtain ⟨k, hk, halike⟩ := position_some hj hplace
    rw [List.getElem?_map, Option.map_eq_some_iff] at hk
    obtain ⟨f, hf, rfl⟩ := hk
    rw [Option.bind_some, hf, Option.map_some, Answer.result_bind_eq_ok] at hr
    obtain ⟨same, hsame, hr⟩ := hr
    rw [Answer.result_pure_eq_ok] at hr
    subst hr
    have hvalue := Heap.settles_eq_iff.1 (sameOrEqual_settles hj hsame)
    filter_upwards [halike, hvalue, ho.eventually_unique] with n hkey hval hunique
    have hmem := List.mem_of_getElem? hf
    have hiff : h.entryForm n e ∈ other.map (h.entryForm n) ↔
        h.form n e.value = h.form n f.value := by
      constructor
      · intro hin
        obtain ⟨g, hg, heq⟩ := List.mem_map.1 hin
        obtain ⟨hgk, hgv⟩ := Form.pair_inj.1 heq
        -- the keys tell that the entry of this form is the one that was found
        have hgf : g = f := hunique g hg f hmem (hgk.trans hkey.symm)
        rw [← hgv, hgf]
      · intro heq
        exact List.mem_map.2 ⟨f, hmem, Form.pair_inj.2 ⟨hkey, heq.symm⟩⟩
    rw [hiff, ← hval]
    cases same <;> simp

theorem entriesWithin_settles {entries other : List Entry} {r : Bool} (hj : EqSound h judge)
    (he : ∀ e ∈ entries, h.Hashes e.key.value e.key.hash)
    (ho : h.KeysFit (other.map Entry.key))
    (hr : (entriesWithin judge other entries).result = .ok r) :
    ∀ᶠ n in atTop,
      (r = true ↔ entries.map (h.entryForm n) ⊆ other.map (h.entryForm n)) := by
  induction entries generalizing r with
  | nil =>
    rw [entriesWithin, Answer.result_pure_eq_ok] at hr
    subst hr
    simp
  | cons e rest ih =>
    rw [entriesWithin, Answer.result_bind_eq_ok] at hr
    obtain ⟨missing, hmissing, hr⟩ := hr
    have hdiff := differs_settles hj (he e List.mem_cons_self) ho hmissing
    cases missing with
    | true =>
      rw [if_pos rfl, Answer.result_pure_eq_ok] at hr
      subst hr
      filter_upwards [hdiff] with n hn
      have hnot := hn.1 rfl
      simp only [Bool.false_eq_true, List.map_cons, List.cons_subset, false_iff, not_and]
      exact fun hin => absurd hin hnot
    | false =>
      rw [if_neg Bool.false_ne_true] at hr
      filter_upwards [hdiff, ih (fun f hf => he f (List.mem_cons_of_mem e hf)) hr] with n hn hrest
      have hin : h.entryForm n e ∈ other.map (h.entryForm n) := by
        by_contra hnot
        exact Bool.false_ne_true (hn.2 hnot)
      rw [hrest, List.map_cons, List.cons_subset]
      exact (and_iff_right hin).symm

theorem perm_iff_subset_of_nodup {α : Type} {xs ys : List α} (hx : xs.Nodup)
    (hlen : xs.length = ys.length) : xs.Perm ys ↔ xs ⊆ ys :=
  ⟨List.Perm.subset, fun hs => (hx.subperm hs).perm_of_length_le hlen.ge⟩

/-- **Two dicts are equal when they hold entries of the same forms.** -/
theorem dictsEqual_settles {x y : List Entry} {r : Bool} (hj : EqSound h judge)
    (hx : h.KeysFit (x.map Entry.key)) (hy : h.KeysFit (y.map Entry.key))
    (hr : (dictsEqual judge x y).result = .ok r) :
    ∀ᶠ n in atTop, (r = true ↔ (x.map (h.entryForm n)).Perm (y.map (h.entryForm n))) := by
  rw [dictsEqual] at hr
  split at hr
  · next hlen =>
    have hhash : ∀ e ∈ x, h.Hashes e.key.value e.key.hash := fun e he =>
      hx.hashes e.key (List.mem_map_of_mem he)
    filter_upwards [entriesWithin_settles hj hhash hy hr, hx.eventually_nodup_entries]
      with n hn hnodup
    rw [hn, perm_iff_subset_of_nodup hnodup (by simpa using hlen)]
  · next hlen =>
    rw [Answer.result_pure_eq_ok] at hr
    subst hr
    refine Eventually.of_forall fun n => ?_
    simp only [Bool.false_eq_true, false_iff]
    intro hperm
    exact hlen (by simpa using hperm.length_eq)

/-! ## Sets -/

theorem elementsWithin_settles {elements other : List HashedKey} {r : Bool}
    (hj : EqSound h judge) (he : ∀ k ∈ elements, h.Hashes k.value k.hash)
    (ho : ∀ k ∈ other, h.Hashes k.value k.hash)
    (hr : (elementsWithin judge other elements).result = .ok r) :
    ∀ᶠ n in atTop, (r = true ↔ elements.map (h.keyForm n) ⊆ other.map (h.keyForm n)) := by
  induction elements generalizing r with
  | nil =>
    rw [elementsWithin, Answer.result_pure_eq_ok] at hr
    subst hr
    simp
  | cons k rest ih =>
    rw [elementsWithin, Answer.result_bind_eq_ok] at hr
    obtain ⟨found, hfound, hr⟩ := hr
    have hin := contains_settles hj (he k List.mem_cons_self) ho hfound
    cases found with
    | true =>
      rw [if_pos rfl] at hr
      filter_upwards [hin, ih (fun l hl => he l (List.mem_cons_of_mem k hl)) hr] with n hn hrest
      rw [hrest, List.map_cons, List.cons_subset]
      exact (and_iff_right (hn.1 rfl)).symm
    | false =>
      rw [if_neg Bool.false_ne_true, Answer.result_pure_eq_ok] at hr
      subst hr
      filter_upwards [hin] with n hn
      simp only [Bool.false_eq_true, List.map_cons, List.cons_subset, false_iff, not_and]
      exact fun hmem => absurd (hn.2 hmem) Bool.false_ne_true

/-- **One set is within another when the forms of its elements are among those of the other.** -/
theorem isSubset_settles {x y : List HashedKey} {r : Bool} (hj : EqSound h judge)
    (hx : h.KeysFit x) (hy : h.KeysFit y) (hr : (isSubset judge x y).result = .ok r) :
    ∀ᶠ n in atTop, (r = true ↔ x.map (h.keyForm n) ⊆ y.map (h.keyForm n)) := by
  rw [isSubset] at hr
  split at hr
  · next hlen =>
    rw [Answer.result_pure_eq_ok] at hr
    subst hr
    filter_upwards [hx.eventually_nodup] with n hnodup
    simp only [Bool.false_eq_true, false_iff]
    intro hs
    have := (hnodup.subperm hs).length_le
    simp only [List.length_map] at this
    omega
  · exact elementsWithin_settles hj hx.hashes hy.hashes hr

/-- Two sets are equal when they hold elements of the same forms. -/
theorem setsEqual_settles {x y : List HashedKey} {r : Bool} (hj : EqSound h judge)
    (hx : h.KeysFit x) (hy : h.KeysFit y) (hr : (sets judge .eq x y).result = .ok r) :
    ∀ᶠ n in atTop, (r = true ↔ (x.map (h.keyForm n)).Perm (y.map (h.keyForm n))) := by
  rw [sets] at hr
  split at hr
  · next hlen =>
    filter_upwards [isSubset_settles hj hx hy hr, hx.eventually_nodup] with n hn hnodup
    rw [hn, perm_iff_subset_of_nodup hnodup (by simpa using hlen)]
  · next hlen =>
    rw [Answer.result_pure_eq_ok] at hr
    subst hr
    refine Eventually.of_forall fun n => ?_
    simp only [Bool.false_eq_true, false_iff]
    intro hperm
    exact hlen (by simpa using hperm.length_eq)

end Compare

end ValueHeap
