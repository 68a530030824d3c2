import ValueHeap.Proofs.Compare.Tables
import ValueHeap.Proofs.Equal

/-!
# Finding keys in a hash table

The places of keys are kept in a hash table.  What it offers for a hash are the places of all keys
that went in under that hash, and perhaps others, in an order of its own.  `Compare.position` looks
at all places in the order in which the keys went in.  Whatever the order, a lookup that ends in a
result has found the one key that equals the wanted one, or there is none.

## What is here

* `Compare.probe` — a lookup that looks at the places that a hash table offers, and
  `Compare.position_eq_probe`, the case of all places in order.
* `Compare.Answers` — what a place says of the wanted key.
* `stored_keys_found` — the keys of a dict or a set in whatever can come about.
-/

set_option autoImplicit false

namespace ValueHeap

namespace Compare

variable {h : Heap} {judge : Judge} {wanted : HashedKey} {stored : List HashedKey}

/-- Whether a stored key is the wanted one: it has its hash, and is the same value as it or equal to
it. -/
def isWanted (judge : Judge) (wanted key : HashedKey) : Answer Bool :=
  if key.hash = wanted.hash then sameOrEqual judge key.value wanted.value else pure false

/-- The first place among those offered whose key is the wanted one. -/
def probe (judge : Judge) (wanted : HashedKey) (stored : List HashedKey) :
    List (Fin stored.length) → Answer (Option Nat)
  | [] => pure none
  | i :: rest => do
    let found ← isWanted judge wanted stored[i]
    if found then pure (some i.val) else probe judge wanted stored rest

theorem position_cons_eq (judge : Judge) (wanted key : HashedKey) (rest : List HashedKey) :
    position judge wanted (key :: rest) = isWanted judge wanted key >>= fun found =>
      if found then pure (some 0)
      else (fun place => place.map (· + 1)) <$> position judge wanted rest := by
  simp only [map_eq_pure_bind]
  rw [position, isWanted]
  split <;> rfl

/-- Behind the first key, a probe goes on among the others. -/
theorem probe_succ (key : HashedKey) (offers : List (Fin stored.length)) :
    probe judge wanted (key :: stored) (offers.map Fin.succ) =
      (fun place => place.map (· + 1)) <$> probe judge wanted stored offers := by
  induction offers with
  | nil => rfl
  | cons i rest ih =>
    rw [List.map_cons, probe, probe, ih, map_bind]
    refine bind_congr fun found => ?_
    cases found <;> rfl

/-- A lookup in order is a probe of all places. -/
theorem position_eq_probe (judge : Judge) (wanted : HashedKey) (stored : List HashedKey) :
    position judge wanted stored = probe judge wanted stored (List.finRange stored.length) := by
  induction stored with
  | nil => rfl
  | cons key rest ih =>
    have hall : List.finRange (key :: rest).length =
        0 :: (List.finRange rest.length).map Fin.succ := List.finRange_succ
    rw [hall, probe, probe_succ, ← ih, position_cons_eq]
    rfl

/-- A probe stops at the place it is offered first, or goes on behind it. -/
theorem probe_cons {i : Fin stored.length} {rest : List (Fin stored.length)} {o : Option Nat}
    (hr : (probe judge wanted stored (i :: rest)).result = .ok o) :
    (o = some i.val ∧ (sameOrEqual judge stored[i].value wanted.value).result = .ok true) ∨
      ((probe judge wanted stored rest).result = .ok o ∧ (stored[i].hash = wanted.hash →
        (sameOrEqual judge stored[i].value wanted.value).result = .ok false)) := by
  rw [probe, Answer.result_bind_eq_ok] at hr
  obtain ⟨found, hfound, hr⟩ := hr
  rw [isWanted] at hfound
  cases found with
  | true =>
    rw [if_pos rfl, Answer.result_pure_eq_ok] at hr
    split at hfound
    · exact Or.inl ⟨hr.symm, hfound⟩
    · cases hfound
  | false =>
    rw [if_neg Bool.false_ne_true] at hr
    refine Or.inr ⟨hr, fun heq => ?_⟩
    rwa [if_pos heq] at hfound

theorem probe_some {offers : List (Fin stored.length)} {i : Nat}
    (hr : (probe judge wanted stored offers).result = .ok (some i)) :
    ∃ key, stored[i]? = some key ∧
      (sameOrEqual judge key.value wanted.value).result = .ok true := by
  induction offers with
  | nil => cases hr
  | cons j rest ih =>
    rcases probe_cons hr with ⟨hj, hsame⟩ | ⟨hrest, -⟩
    · cases hj
      exact ⟨stored[j], by simp, hsame⟩
    · exact ih hrest

theorem probe_none {offers : List (Fin stored.length)} {i : Fin stored.length}
    (hr : (probe judge wanted stored offers).result = .ok none) (hi : i ∈ offers)
    (hash : stored[i].hash = wanted.hash) :
    (sameOrEqual judge stored[i].value wanted.value).result = .ok false := by
  induction offers with
  | nil => cases hi
  | cons j rest ih =>
    rcases probe_cons hr with ⟨hj, -⟩ | ⟨hrest, hother⟩
    · cases hj
    · rcases List.mem_cons.1 hi with rfl | hi
      · exact hother hash
      · exact ih hrest hi

/-- What a lookup of a key says with the place it found: the key there is the wanted one for the
judge, and no other key equals the wanted one. -/
structure Answers (h : Heap) (judge : Judge) (wanted : HashedKey) (stored : List HashedKey)
    (place : Option Nat) : Prop where
  found : ∀ i, place = some i → ∃ key, stored[i]? = some key ∧
    (key.value.isIdentical wanted.value = true ∨
      (judge key.value wanted.value .eq).result = .ok true)
  only : ∀ i key, stored[i]? = some key → h.Equal key.value wanted.value → place = some i

theorem isIdentical_or_eq {a b : Value} (hr : (sameOrEqual judge a b).result = .ok true) :
    a.isIdentical b = true ∨ (judge a b .eq).result = .ok true := by
  rw [sameOrEqual] at hr
  split at hr
  · next hid => exact Or.inl hid
  · exact Or.inr hr

/-- Two stored keys that are alike are the same one. -/
theorem KeysFit.index_unique (hk : h.KeysFit stored) {i j : Nat} {k l : HashedKey}
    (hi : stored[i]? = some k) (hj : stored[j]? = some l) (hkl : h.Alike k.value l.value) :
    i = j := by
  obtain ⟨hilt, rfl⟩ := List.getElem?_eq_some_iff.1 hi
  obtain ⟨hjlt, rfl⟩ := List.getElem?_eq_some_iff.1 hj
  have hapart := List.pairwise_iff_getElem.1 hk.apart
  rcases Nat.lt_trichotomy i j with hlt | heq | hgt
  · exact absurd hkl (hapart i j hilt hjlt hlt).not_alike
  · exact heq
  · exact absurd hkl.symm (hapart j i hjlt hilt hgt).not_alike

/-- A probe answers for the wanted key, if it is offered every place whose key has its hash. -/
theorem probe_answers {levels : Nat} {mode : Mode} {offers : List (Fin stored.length)}
    {place : Option Nat} (hk : h.Keyed) (hs : h.KeysFit stored)
    (hw : h.Hashes wanted.value wanted.hash)
    (hoffers : ∀ i : Fin stored.length, stored[i].hash = wanted.hash → i ∈ offers)
    (hr : (probe (within h mode levels) wanted stored offers).result = .ok place) :
    Answers h (within h mode levels) wanted stored place where
  found i hi := by
    subst hi
    obtain ⟨key, hkey, hsame⟩ := probe_some hr
    exact ⟨key, hkey, isIdentical_or_eq hsame⟩
  only i key hi heq := by
    have halike := heq.alike hk
    have hj := within_eqSound hk mode levels
    cases place with
    | some j =>
      obtain ⟨other, hother, hsame⟩ := probe_some hr
      have halike' := Heap.settles_eq_true.1 (sameOrEqual_settles hj hsame)
      rw [KeysFit.index_unique hs hother hi (halike'.trans halike.symm)]
    | none =>
      -- its hash is that of the wanted key, so it was offered and judged
      obtain ⟨hlt, rfl⟩ := List.getElem?_eq_some_iff.1 hi
      have hhash : stored[i].hash = wanted.hash :=
        ((hs.hashes _ (List.getElem_mem hlt)).of_form_eq halike).unique hw
      have hsame := probe_none (i := ⟨i, hlt⟩) hr (hoffers ⟨i, hlt⟩ hhash) hhash
      exact absurd halike (Heap.settles_eq_false.1 (sameOrEqual_settles hj hsame)).not_alike

theorem Answers.isSome_iff {mode : Mode} {levels : Nat} {place : Option Nat}
    (ha : Answers h (within h mode levels) wanted stored place) :
    place.isSome = true ↔ ∃ key ∈ stored, h.Equal key.value wanted.value := by
  constructor
  · intro hsome
    obtain ⟨i, hi⟩ := Option.isSome_iff_exists.1 hsome
    obtain ⟨key, hkey, heq⟩ := ha.found i hi
    exact ⟨key, List.mem_of_getElem? hkey, heq.imp_right fun hjudge => ⟨mode, levels, hjudge⟩⟩
  · rintro ⟨key, hkey, heq⟩
    obtain ⟨i, hi⟩ := List.getElem?_of_mem hkey
    rw [ha.only i key hi heq]
    rfl

end Compare

/-- **The keys of dicts and sets are found.**  In whatever can come about, every key of a dict or a
set carries the hash that it has, and no two of them are equal.  A lookup of a key with its hash,
by rich equality in either mode and with any number of levels left, answers for it if it ends in a
result, whatever it is offered beside all keys with that hash: it has found the one key that equals
the wanted one, or there is none.  So has the lookup that looks at the keys in order, and so does
the question whether the key is there. -/
theorem stored_keys_found {budget : Budget} {c : Custody} (hc : Reachable budget c) {s : Slot}
    {p : Payload} (hp : c.heap.find? s = some p) :
    (∀ key ∈ p.keys, c.heap.keyHash key.value = .ok (some key.hash)) ∧
      (∀ (i j : Nat) (k l : HashedKey), p.keys[i]? = some k → p.keys[j]? = some l → i ≠ j →
        ¬c.heap.Equal k.value l.value) ∧
      ∀ (wanted : HashedKey) (mode : Mode) (levels : Nat),
        c.heap.keyHash wanted.value = .ok (some wanted.hash) →
        (∀ (offers : List (Fin p.keys.length)) (place : Option Nat),
          (∀ i : Fin p.keys.length, p.keys[i].hash = wanted.hash → i ∈ offers) →
          (Compare.probe (Compare.within c.heap mode levels) wanted p.keys offers).result =
            .ok place →
          Compare.Answers c.heap (Compare.within c.heap mode levels) wanted p.keys place ∧
            (place.isSome = true ↔ ∃ key ∈ p.keys, c.heap.Equal key.value wanted.value)) ∧
        (∀ place,
          (Compare.position (Compare.within c.heap mode levels) wanted p.keys).result =
            .ok place →
          Compare.Answers c.heap (Compare.within c.heap mode levels) wanted p.keys place) ∧
        ∀ found,
          (Compare.contains (Compare.within c.heap mode levels) wanted p.keys).result =
            .ok found →
          (found = true ↔ ∃ key ∈ p.keys, c.heap.Equal key.value wanted.value) := by
  have hcoherent := hc.sound.coherent
  have hfit := (hcoherent.fits s p hp).keys
  refine ⟨fun key hkey => ?_, fun i j k l hi hj hne heq => ?_, fun wanted mode levels hash => ?_⟩
  · have hname := hcoherent.closed.names hp (Payload.key_mem_parts hkey)
    exact (Heap.keyHash_eq_some_iff hcoherent hname).2 (hfit.hashes key hkey)
  · exact hne (Compare.KeysFit.index_unique hfit hi hj (heq.alike hcoherent.keyed))
  have hprobe (offers : List (Fin p.keys.length)) (place : Option Nat)
      (hoffers : ∀ i : Fin p.keys.length, p.keys[i].hash = wanted.hash → i ∈ offers)
      (hr : (Compare.probe (Compare.within c.heap mode levels) wanted p.keys offers).result =
        .ok place) :=
    Compare.probe_answers hcoherent.keyed hfit (.of_keyHash hash) hoffers hr
  have hposition (place : Option Nat)
      (hr : (Compare.position (Compare.within c.heap mode levels) wanted p.keys).result =
        .ok place) :=
    hprobe _ place (fun i _ => List.mem_finRange i) (Compare.position_eq_probe _ _ _ ▸ hr)
  refine ⟨fun offers place hoffers hr => ?_, hposition, fun found hr => ?_⟩
  · have hanswers := hprobe offers place hoffers hr
    exact ⟨hanswers, hanswers.isSome_iff⟩
  · rw [Compare.contains, Answer.result_bind_eq_ok] at hr
    obtain ⟨place, hplace, hfound⟩ := hr
    rw [← Answer.result_pure_eq_ok.1 hfound]
    exact (hposition place hplace).isSome_iff

/-- The set of the integer 1 holds the float `1.0`. -/
theorem stored_keys_found_one :
    ∃ c : Custody, Reachable .untracked c ∧ c.heap.find? 0 = some (.set [⟨.int 1, 1⟩]) ∧
      c.heap.Equal (.int 1) (.float ⟨0x3ff0000000000000⟩) := by
  have hc : Reachable .untracked _ :=
    .result [.ref 0] .start (Request.permitted_build (.set [.int 1]) _) rfl
  have hset := stored_keys_found hc (s := 0) (p := .set [⟨.int 1, 1⟩]) rfl
  have hone := (hset.2.2 ⟨.float ⟨0x3ff0000000000000⟩, 1⟩ .total 200 rfl).1 [⟨0, Nat.one_pos⟩]
    (some 0) (fun i _ => List.mem_singleton.2 (Fin.ext (Nat.lt_one_iff.1 i.isLt))) rfl
  obtain ⟨key, hkey, heq⟩ := hone.2.1 rfl
  obtain rfl := List.mem_singleton.1 hkey
  exact ⟨_, hc, rfl, heq⟩

end ValueHeap
