import ValueHeap.Proofs.Compare.Tables
import ValueHeap.Proofs.Object.Keys

/-!
# Finding keys as values and as objects

A key that spells an object is looked for among stored keys that spell objects, while a value is
built.  It is found in the place where its object is the same key, and when it is not found it has
been told apart from all those with its hash.  The other way round, a key that can be told apart
from them with the levels at hand is not found.

## What is here

* `Heap.Spells.keys` and `Heap.Spells.set` — the keys of entries, and another value under one.
* `Compare.KeySpells` and `Compare.Sought` — a stored key, and one that is looked for among several.
* `Compare.Sought.of_elements` and `Compare.Sought.of_entries` — the stored keys are those of a set
  or of a dict under way.
* `Compare.Sought.place_eq` and `Compare.Sought.not_found` — what a lookup comes to.
-/

set_option autoImplicit false

namespace ValueHeap

namespace Heap

variable {h : Heap} {levels : Nat} {entries : List Entry} {pairs : List (Object × Object)}
  {slots : Multiset Slot}

/-- The first entry spells the first pair, and the others spell the others. -/
theorem Spells.uncons_entry {e : Entry}
    (hs : h.Spells levels ((e :: entries).flatMap Entry.parts) (pairs.flatMap Object.pairParts)
      slots) :
    ∃ pair rest a b c, pairs = pair :: rest ∧ slots = a + (b + c) ∧
      h.Spells levels [e.key.value] [pair.1] a ∧ h.Spells levels [e.value] [pair.2] b ∧
      h.Spells levels (entries.flatMap Entry.parts) (rest.flatMap Object.pairParts) c := by
  rw [List.flatMap_cons, Entry.parts, List.cons_append] at hs
  obtain ⟨o, _, a, _, heq, rfl, hkey, hs⟩ := hs.uncons
  obtain ⟨o', _, b, c, rfl, rfl, hvalue, hrest⟩ := hs.uncons
  cases pairs with
  | nil => cases heq
  | cons pair rest =>
    cases heq
    exact ⟨pair, rest, a, b, c, rfl, rfl, hkey, hvalue, hrest⟩

/-- The keys of entries spell the keys of pairs when their parts spell theirs. -/
theorem Spells.keys
    (hs : h.Spells levels (entries.flatMap Entry.parts) (pairs.flatMap Object.pairParts) slots) :
    ∃ slots', slots' ≤ slots ∧ h.Spells levels ((entries.map Entry.key).map HashedKey.value)
      (pairs.map Prod.fst) slots' := by
  induction entries generalizing pairs slots with
  | nil =>
    cases pairs with
    | nil => exact ⟨slots, le_refl slots, hs⟩
    | cons => cases hs
  | cons e entries ih =>
    obtain ⟨pair, rest, a, b, c, rfl, rfl, hkey, -, hrest⟩ := hs.uncons_entry
    obtain ⟨c', hle, hkeys⟩ := ih hrest
    refine ⟨a + c', ?_, hkey.cons hkeys⟩
    exact add_le_add_right (hle.trans (Multiset.le_add_left c b)) a

/-- With another value under the key in one place, entries spell pairs with another one there. -/
theorem Spells.set {i : Nat} {e : Entry} {v : Value} {o : Object} {slots' : Multiset Slot}
    (hs : h.Spells levels (entries.flatMap Entry.parts) (pairs.flatMap Object.pairParts) slots)
    (hv : h.Spells levels [v] [o] slots') (hi : entries[i]? = some e) :
    ∃ slots'', slots'' ≤ slots + slots' ∧
      h.Spells levels ((entries.set i { e with value := v }).flatMap Entry.parts)
        ((pairs.modify i fun pair => (pair.1, o)).flatMap Object.pairParts) slots'' := by
  induction entries generalizing pairs slots i with
  | nil => simp at hi
  | cons x entries ih =>
    obtain ⟨pair, rest, a, b, c, rfl, rfl, hkey, hvalue, hrest⟩ := hs.uncons_entry
    cases i with
    | zero =>
      cases hi
      refine ⟨a + (slots' + c), ?_, hkey.cons (hv.cons hrest)⟩
      calc a + (slots' + c)
        _ ≤ a + (slots' + c) + b := Multiset.le_add_right _ b
        _ = a + (b + c) + slots' := by ac_rfl
    | succ i =>
      obtain ⟨c', hle, hset⟩ := ih hrest hi
      refine ⟨a + (b + c'), ?_, hkey.cons (hvalue.cons hset)⟩
      calc a + (b + c')
        _ ≤ a + (b + (c + slots')) := add_le_add_right (add_le_add_right hle b) a
        _ = a + (b + c) + slots' := by ac_rfl

end Heap

namespace Compare

variable {h : Heap} {levels n : Nat} {mode : Mode} {wanted stored : HashedKey} {o k : Object}
  {slots slots' : Multiset Slot} {keys : List HashedKey} {os : List Object}

/-- A stored key carries the hash of an object and spells it, with none of these slots. -/
def KeySpells (h : Heap) (levels : Nat) (slots : Multiset Slot) (key : HashedKey)
    (o : Object) : Prop :=
  o.keyHash = some key.hash ∧ ∃ own, h.Spells levels [key.value] [o] own ∧ Disjoint own slots

/-- A key with its hash that spells an object and is looked for among stored keys that spell
objects.  It has no slot in common with them. -/
structure Sought (h : Heap) (levels : Nat) (wanted : HashedKey) (o : Object)
    (stored : List HashedKey) (keys : List Object) : Prop where
  hash : o.keyHash = some wanted.hash
  spells : ∃ slots, h.Spells levels [wanted.value] [o] slots ∧
    List.Forall₂ (KeySpells h levels slots) stored keys

/-! ## Keys under way -/

theorem keySpells_of_spells (hs : h.Spells levels (keys.map HashedKey.value) os slots')
    (hhash : ∀ key ∈ keys, h.Hashes key.value key.hash) (hdisjoint : Disjoint slots' slots) :
    List.Forall₂ (KeySpells h levels slots) keys os := by
  induction keys generalizing os slots' with
  | nil =>
    obtain rfl := List.length_eq_zero_iff.1 hs.length_eq.symm
    exact .nil
  | cons key keys ih =>
    obtain ⟨o, os, a, b, rfl, rfl, hkey, hs⟩ := hs.uncons
    obtain ⟨⟨m, hm⟩, hhash⟩ := List.forall_mem_cons.1 hhash
    refine .cons ⟨(hkey.hash_eq hm).symm, a, hkey, ?_⟩ (ih hs hhash ?_)
    · exact Disjoint.mono_left (Multiset.le_add_right a b) hdisjoint
    · exact Disjoint.mono_left (Multiset.le_add_left b a) hdisjoint

/-- An element is looked for among the elements before it. -/
theorem Sought.of_elements (hs : h.Spells levels (keys.map HashedKey.value) os slots)
    (hw : h.Spells levels [wanted.value] [o] slots') (hnodup : (slots + slots').Nodup)
    (hhashes : ∀ key ∈ keys, h.Hashes key.value key.hash)
    (hhash : h.Hashes wanted.value wanted.hash) : Sought h levels wanted o keys os := by
  obtain ⟨m, hm⟩ := hhash
  refine ⟨(hw.hash_eq hm).symm, slots', hw, ?_⟩
  exact keySpells_of_spells hs hhashes (Multiset.nodup_add.1 hnodup).2.2

/-- A key is looked for among the keys of the entries before it. -/
theorem Sought.of_entries {entries : List Entry} {pairs : List (Object × Object)}
    (hs : h.Spells levels (entries.flatMap Entry.parts) (pairs.flatMap Object.pairParts) slots)
    (hw : h.Spells levels [wanted.value] [o] slots') (hnodup : (slots + slots').Nodup)
    (hhashes : ∀ key ∈ entries.map Entry.key, h.Hashes key.value key.hash)
    (hhash : h.Hashes wanted.value wanted.hash) :
    Sought h levels wanted o (entries.map Entry.key) (pairs.map Prod.fst) := by
  obtain ⟨slots'', hle, hkeys⟩ := hs.keys
  exact .of_elements hkeys hw (Multiset.nodup_of_le (add_le_add_left hle slots') hnodup) hhashes
    hhash

/-! ## Lookups -/

theorem Sought.length_eq (hs : Sought h levels wanted o keys os) : keys.length = os.length := by
  obtain ⟨-, slots, -, hstored⟩ := hs
  exact hstored.length_eq

/-- What a lookup is told about one stored key. -/
theorem KeySpells.told_iff (hk : KeySpells h levels slots stored k)
    (hw : h.Spells levels [wanted.value] [o] slots) (hhash : o.keyHash = some wanted.hash)
    (r : Bool) :
    (sameOrEqual (within h mode n) stored.value wanted.value).result = .ok r ↔
      Object.judged n k o = some r := by
  obtain ⟨hstored, own, hspells, hdisjoint⟩ := hk
  exact sameOrEqual_iff (within_finds h levels mode n) hspells hw hdisjoint
    (by rw [hstored]; rfl) (by rw [hhash]; rfl) r

/-- **A key is found where its object is.**  When it is not found it has been told apart from all
keys with its hash. -/
theorem Sought.place_eq {place : Option Nat} (hs : Sought h levels wanted o keys os)
    (hr : (position (within h mode n) wanted keys).result = .ok place) :
    place = os.findIdx? (fun k => k.sameKey o) ∧
      (place = none → ∀ k ∈ os, k.keyHash = o.keyHash → Object.judged n k o = some false) := by
  obtain ⟨hhash, slots, hw, hstored⟩ := hs
  induction hstored generalizing place with
  | nil => exact ⟨(Answer.result_pure_eq_ok.1 hr).symm, fun _ k hk => absurd hk List.not_mem_nil⟩
  | @cons stored k keys os hk _ ih =>
    have heq : k.keyHash = o.keyHash ↔ stored.hash = wanted.hash := by
      rw [hk.1, hhash, Option.some_inj]
    rw [List.findIdx?_cons]
    rcases position_cons hr with ⟨rfl, hsame, htold⟩ | ⟨place, rfl, hplace, htold⟩
    · have htold := (hk.told_iff hw hhash true).1 htold
      rw [Object.sameKey_eq_true (heq.2 hsame) htold, if_pos rfl]
      exact ⟨rfl, nofun⟩
    · have hother (hsame : k.keyHash = o.keyHash) : Object.judged n k o = some false :=
        (hk.told_iff hw hhash false).1 (htold (heq.1 hsame))
      obtain ⟨hrest, hnone⟩ := ih hplace
      rw [Object.sameKey_eq_false hother, if_neg Bool.false_ne_true, ← hrest]
      refine ⟨rfl, fun hp => List.forall_mem_cons.2 ⟨hother, hnone ?_⟩⟩
      exact Option.map_eq_none_iff.1 hp

/-- A key that can be told apart from all stored ones with its hash is not found. -/
theorem Sought.not_found (hs : Sought h levels wanted o keys os)
    (hnew : ∀ k ∈ os, k.keyHash = o.keyHash → Object.judged n k o = some false) :
    (position (within h mode n) wanted keys).result = .ok none := by
  obtain ⟨hhash, slots, hw, hstored⟩ := hs
  induction hstored with
  | nil => rfl
  | @cons stored k keys os hk _ ih =>
    obtain ⟨hother, hnew⟩ := List.forall_mem_cons.1 hnew
    rw [position, Answer.result_ite_bind_eq_ok]
    refine ⟨false, ?_, Answer.result_bind_eq_ok.2 ⟨none, ih hnew, rfl⟩⟩
    split
    · next hsame =>
      refine (hk.told_iff hw hhash false).2 (hother ?_)
      rw [hk.1, hhash, hsame]
    · rfl

end Compare

end ValueHeap
