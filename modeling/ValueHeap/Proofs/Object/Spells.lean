import ValueHeap.Object.Snapshot
import ValueHeap.Proofs.Faultless.Walks
import ValueHeap.Proofs.Object.Apart

/-!
# Values that spell objects

A value spells an object when it is the value that is built for it, part by part: values without a
slot where the object needs none, and contents of the right kind everywhere else.  Nothing in it is
shared, so each of its slots is met once on the way through it.  It is then a tree, and its snapshot
is the object.

## What is here

* `Payload.Describes` — contents of the kind of an object, with the objects that their parts are to
  spell.  The keys of a dict and the elements of a set are told apart.
* `Heap.Spells` — values that spell objects one by one, with the slots that they take.
* `Heap.Spells.mono` and `Heap.Spells.of_extends` — they go on doing so in a heap that holds more,
  or less.
* `Heap.Spells.snapshot` — the snapshot of a value that spells an object.
-/

set_option autoImplicit false

namespace ValueHeap

/-- The objects that a pair is made of, as an entry is made of values. -/
def Object.pairParts (pair : Object × Object) : List Object := [pair.1, pair.2]

/-- Contents of the kind of an object, whose parts are to spell these objects.  A long integer is
no machine integer, and keys are told apart with so many levels. -/
inductive Payload.Describes (levels : Nat) : Payload → List Object → Object → Prop
  | str (text : String) : Describes levels (.str text) [] (.str text)
  | bytes (data : List UInt8) : Describes levels (.bytes data) [] (.bytes data)
  | longInt {n : Int} (hn : n ≠ (Int64.ofInt n).toInt) :
      Describes levels (.longInt n) [] (.bigInt n)
  | complex (re im : Binary64) : Describes levels (.complex re im) [] (.complex re im)
  | list (items : List Value) (os : List Object) : Describes levels (.list items) os (.list os)
  | tuple (items : List Value) (os : List Object) : Describes levels (.tuple items) os (.tuple os)
  | dict (entries : List Entry) {pairs : List (Object × Object)}
      (hkeys : Object.KeysApart levels (pairs.map Prod.fst)) :
      Describes levels (.dict entries) (pairs.flatMap Object.pairParts) (.dict pairs)
  | set (elements : List HashedKey) {os : List Object} (hkeys : Object.KeysApart levels os) :
      Describes levels (.set elements) os (.set os)
  | range (p : Progression) : Describes levels (.range p) [] (.range p.start p.stop p.step)
  | slice (a b c : Value) (x y z : Object) :
      Describes levels (.slice a b c) [x, y, z] (.slice x y z)

namespace Heap

/-- Values that spell objects one by one, with the slots that they take, each as often as it is met
on the way through them. -/
inductive Spells (h : Heap) (levels : Nat) : List Value → List Object → Multiset Slot → Prop
  | nil : Spells h levels [] [] 0
  | immediate {v : Value} {o : Object} {vs : List Value} {os : List Object} {slots : Multiset Slot}
      (hv : o.immediate? = some v) (rest : Spells h levels vs os slots) :
      Spells h levels (v :: vs) (o :: os) slots
  | contents {s : Slot} {p : Payload} {o : Object} {parts : List Object} {vs : List Value}
      {os : List Object} {slots slots' : Multiset Slot} (hp : h.find? s = some p)
      (ho : p.Describes levels parts o) (hparts : Spells h levels p.parts parts slots)
      (rest : Spells h levels vs os slots') :
      Spells h levels (.ref s :: vs) (o :: os) (s ::ₘ (slots + slots'))

variable {h k : Heap} {levels : Nat} {vs vs' : List Value} {os os' : List Object} {v : Value}
  {o : Object} {slots slots' : Multiset Slot}

theorem slot?_of_immediate (hv : o.immediate? = some v) : v.slot? = none := by
  cases o <;> cases hv <;> rfl

/-! ## Lists of values -/

namespace Spells

theorem append (hs : h.Spells levels vs os slots) (hs' : h.Spells levels vs' os' slots') :
    h.Spells levels (vs ++ vs') (os ++ os') (slots + slots') := by
  induction hs with
  | nil => simpa using hs'
  | immediate hv _ ih => exact .immediate hv ih
  | contents hp ho hparts _ _ ih =>
    rw [Multiset.cons_add, add_assoc]
    exact .contents hp ho hparts ih

theorem length_eq (hs : h.Spells levels vs os slots) : vs.length = os.length := by
  induction hs with
  | nil => rfl
  | immediate _ _ ih => exact congrArg (· + 1) ih
  | contents _ _ _ _ _ ih => exact congrArg (· + 1) ih

/-- The first value spells the first object, and the others spell the others. -/
theorem uncons (hs : h.Spells levels (v :: vs) os slots) :
    ∃ o rest a b, os = o :: rest ∧ slots = a + b ∧ h.Spells levels [v] [o] a ∧
      h.Spells levels vs rest b := by
  cases hs with
  | immediate hv rest => exact ⟨_, _, 0, _, rfl, (zero_add _).symm, .immediate hv .nil, rest⟩
  | contents hp ho hparts rest =>
    refine ⟨_, _, _, _, rfl, ?_, .contents hp ho hparts .nil, rest⟩
    rw [add_zero, Multiset.cons_add]

theorem cons (hv : h.Spells levels [v] [o] slots) (hs : h.Spells levels vs os slots') :
    h.Spells levels (v :: vs) (o :: os) (slots + slots') :=
  hv.append hs

/-- All slots are in use. -/
theorem isSome (hs : h.Spells levels vs os slots) {s : Slot} (hmem : s ∈ slots) :
    (h.find? s).isSome := by
  induction hs with
  | nil => exact absurd hmem (Multiset.notMem_zero s)
  | immediate _ _ ih => exact ih hmem
  | contents hp _ _ _ ihparts ih =>
    rcases Multiset.mem_cons.1 hmem with rfl | hmem
    · rw [hp]
      rfl
    · exact (Multiset.mem_add.1 hmem).elim ihparts ih

/-- The values are in use. -/
theorem names (hs : h.Spells levels vs os slots) : ∀ v ∈ vs, h.Names v := by
  induction hs with
  | nil => exact fun _ hv => absurd hv List.not_mem_nil
  | immediate hv _ ih =>
    refine List.forall_mem_cons.2 ⟨fun s hs => ?_, ih⟩
    subst hs
    cases slot?_of_immediate hv
  | contents hp _ _ _ _ ih =>
    refine List.forall_mem_cons.2 ⟨fun t ht => ?_, ih⟩
    cases ht
    rw [hp]
    rfl

/-! ## Other heaps -/

/-- In a heap that holds more they spell the same. -/
theorem mono (hs : h.Spells levels vs os slots) (hhk : h.Extends k) :
    k.Spells levels vs os slots := by
  induction hs with
  | nil => exact .nil
  | immediate hv _ ih => exact .immediate hv ih
  | contents hp ho _ _ ihparts ih => exact .contents (hhk _ _ hp) ho ihparts ih

/-- In a heap that holds less they spell the same as long as they are in use. -/
theorem of_extends (hs : h.Spells levels vs os slots) (hkh : k.Extends h) (hclosed : k.Closed)
    (hnames : ∀ v ∈ vs, k.Names v) : k.Spells levels vs os slots := by
  induction hs with
  | nil => exact .nil
  | immediate hv _ ih => exact .immediate hv (ih (List.forall_mem_cons.1 hnames).2)
  | contents hp ho _ _ ihparts ih =>
    obtain ⟨hname, hrest⟩ := List.forall_mem_cons.1 hnames
    obtain ⟨q, hq⟩ := Option.isSome_iff_exists.1 (hname _ rfl)
    obtain rfl := Option.some.inj (hp.symm.trans (hkh _ q hq))
    exact .contents hq ho (ihparts fun v hv => hclosed.names hq hv) (ih hrest)

end Spells

/-! ## Snapshots -/

theorem snapshotFrom_immediate (hv : o.immediate? = some v) (n : Nat) (path : List Slot) :
    h.snapshotFrom n path v = .ok o := by
  cases o <;> cases hv <;> cases n <;> rfl

theorem snapshot_immediate (hv : o.immediate? = some v) : h.snapshot v = .ok o := by
  rw [snapshot_eq_snapshotFrom, snapshotFrom_immediate hv]

theorem mapM_cons_eq_ok {α β : Type} {f : α → Except Fault β} {x : α} {xs : List α}
    {ys : List β} :
    (x :: xs).mapM f = .ok ys ↔ ∃ y rest, f x = .ok y ∧ xs.mapM f = .ok rest ∧ ys = y :: rest := by
  rw [List.mapM_cons, bind_eq_ok]
  constructor
  · rintro ⟨y, hy, hys⟩
    obtain ⟨rest, hrest, hys⟩ := bind_eq_ok.1 hys
    exact ⟨y, rest, hy, hrest, (Except.ok.inj hys).symm⟩
  · rintro ⟨y, rest, hy, hrest, rfl⟩
    exact ⟨y, hy, bind_eq_ok.2 ⟨rest, hrest, rfl⟩⟩

/-- The objects for the parts of entries, taken in pairs. -/
theorem mapM_entries {part : Value → Except Fault Object} {entries : List Entry}
    {pairs : List (Object × Object)}
    (hparts : (entries.flatMap Entry.parts).mapM part = .ok (pairs.flatMap Object.pairParts)) :
    (entries.mapM fun e => do
      let key ← part e.key.value
      let value ← part e.value
      pure (key, value)) = .ok pairs := by
  induction entries generalizing pairs with
  | nil =>
    cases pairs with
    | nil => rfl
    | cons => cases hparts
  | cons e rest ih =>
    rw [List.flatMap_cons, Entry.parts, List.cons_append, mapM_cons_eq_ok] at hparts
    obtain ⟨x, _, hx, hparts, heq⟩ := hparts
    rw [List.singleton_append, mapM_cons_eq_ok] at hparts
    obtain ⟨y, _, hy, hrest, rfl⟩ := hparts
    cases pairs with
    | nil => cases heq
    | cons pair pairs =>
      obtain ⟨l, w⟩ := pair
      cases heq
      rw [mapM_cons_eq_ok]
      exact ⟨(l, w), pairs, bind_eq_ok.2 ⟨l, hx, bind_eq_ok.2 ⟨w, hy, rfl⟩⟩, ih hrest, rfl⟩

/-- The object for contents whose parts have these objects. -/
theorem objectOf_of_describes {p : Payload} {parts : List Object}
    {part : Value → Except Fault Object} (ho : p.Describes levels parts o)
    (hparts : p.parts.mapM part = .ok parts) : h.objectOf part p = .ok o := by
  cases ho with
  | list items os => exact congrArg (Functor.map Object.list) hparts
  | tuple items os => exact congrArg (Functor.map Object.tuple) hparts
  | set elements =>
    rw [Payload.parts, List.mapM_map] at hparts
    exact congrArg (Functor.map Object.set) hparts
  | dict entries => exact congrArg (Functor.map Object.dict) (mapM_entries hparts)
  | slice a b c x y z =>
    obtain ⟨_, rest, hx, hrest, heq⟩ := mapM_cons_eq_ok.1 hparts
    cases heq
    obtain ⟨_, rest, hy, hrest, heq⟩ := mapM_cons_eq_ok.1 hrest
    cases heq
    obtain ⟨_, rest, hz, -, heq⟩ := mapM_cons_eq_ok.1 hrest
    cases heq
    exact bind_eq_ok.2 ⟨x, hx, bind_eq_ok.2 ⟨y, hy, bind_eq_ok.2 ⟨z, hz, rfl⟩⟩⟩
  | _ => rfl

/-- The snapshots of values that spell objects, as long as no slot is met twice and there are
enough to go. -/
theorem Spells.snapshotFrom {n : Nat} {path : List Slot} (hs : h.Spells levels vs os slots)
    (hnodup : slots.Nodup) (hpath : ∀ s ∈ slots, s ∉ path) (hcard : slots.card ≤ n) :
    vs.mapM (h.snapshotFrom n path) = .ok os := by
  induction hs generalizing n path with
  | nil => rfl
  | immediate hv _ ih =>
    rw [List.mapM_cons, snapshotFrom_immediate hv, ih hnodup hpath hcard]
    rfl
  | @contents s p o parts vs os slots slots' hp ho _ _ ihparts ih =>
    obtain ⟨hnew, hnodup⟩ := Multiset.nodup_cons.1 hnodup
    obtain ⟨hnodup, hnodup', -⟩ := Multiset.nodup_add.1 hnodup
    rw [Multiset.card_cons, Multiset.card_add] at hcard
    obtain ⟨m, rfl⟩ := Nat.exists_eq_add_of_le' (Nat.le_trans (Nat.le_add_left 1 _) hcard)
    have hrest := ih hnodup' (fun t ht => hpath t (by simp [ht])) (Nat.le_trans (by omega) hcard)
    have hbelow : ∀ t ∈ slots, t ∉ s :: path := fun t ht => by
      rw [List.mem_cons, not_or]
      exact ⟨fun heq => hnew (heq ▸ Multiset.mem_add.2 (Or.inl ht)), hpath t (by simp [ht])⟩
    have hself : h.snapshotFrom (m + 1) path (.ref s) = .ok o := by
      rw [Heap.snapshotFrom, read_eq_ok_iff.2 hp]
      simp only [if_neg (hpath s (Multiset.mem_cons_self s _))]
      exact objectOf_of_describes ho (ihparts hnodup hbelow (by omega))
    exact mapM_cons_eq_ok.2 ⟨o, os, hself, hrest, rfl⟩

/-- **The snapshot of a value that spells an object is the object.** -/
theorem Spells.snapshot (hspells : h.Spells levels [v] [o] slots) (hnodup : slots.Nodup) :
    h.snapshot v = .ok o := by
  have hcard : slots.card ≤ h.cells.size := by
    rw [← Multiset.toFinset_card_of_nodup hnodup, ← Finset.card_range h.cells.size]
    refine Finset.card_le_card fun s hs => Finset.mem_range.2 ?_
    obtain ⟨p, hp⟩ := Option.isSome_iff_exists.1 (hspells.isSome (Multiset.mem_toFinset.1 hs))
    obtain ⟨c, hc, -⟩ := exists_cell?_of_find? hp
    exact lt_size_of_cell? hc
  rw [snapshot_eq_snapshotFrom]
  have hmap := hspells.snapshotFrom hnodup (fun _ _ => List.not_mem_nil) hcard
  obtain ⟨_, _, hv, -, heq⟩ := mapM_cons_eq_ok.1 hmap
  cases heq
  exact hv

end Heap

end ValueHeap
