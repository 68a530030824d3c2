import ValueHeap.Proofs.Heap.Edits
import ValueHeap.Proofs.Heap.Nesting
import ValueHeap.Proofs.Object.Spells

/-!
# What is written out of plain data

Plain data is made of containers, numbers that are not complex, texts, bytes and ranges, and it is
not contained in itself.  Then no reference ever leads back on the way down, and an object is
written out of contents just as objects are written out of their parts.  Which slots the parts take
is lost, and so is which of them were shared.

## What is here

* `Heap.PlainTree` — plain data that does not contain itself, however much of it is shared, and
  `Heap.plainTree_iff`, the same in terms of what occurs in a value.
* `Heap.PlainTree.snapshot_ref` — the object for contents, from the objects for the parts.
* `Payload.Written` and `Heap.Writes` — what is written out of contents and of a value.
-/

set_option autoImplicit false

namespace ValueHeap

open Filter

/-! ## Plain data -/

/-- Whether contents are no complex number, no class and no instance. -/
def Payload.isPlain : Payload → Bool
  | complex .. | userClass .. | userInstance _ => false
  | _ => true

theorem Payload.isNominal_eq_false {p : Payload} (hp : p.isPlain = true) : p.isNominal = false := by
  cases p <;> first | rfl | cases hp

namespace Heap

/-- No complex number, no class and no instance occurs in the value, and the way down comes to an
end everywhere. -/
inductive PlainTree (h : Heap) : Value → Prop
  | immediate {v : Value} (hv : v.slot? = none) : PlainTree h v
  | contents {s : Slot} {p : Payload} (hp : h.find? s = some p) (hplain : p.isPlain = true)
      (hparts : ∀ x ∈ p.parts, PlainTree h x) : PlainTree h (.ref s)

variable {h : Heap} {s : Slot} {p : Payload} {v w x : Value} {o : Object}

namespace PlainTree

theorem names (hv : h.PlainTree v) : h.Names v := by
  rintro s rfl
  cases hv with
  | immediate hv => cases hv
  | contents hp => exact Option.isSome_iff_exists.2 ⟨_, hp⟩

theorem isPlain (hv : h.PlainTree (.ref s)) (hp : h.find? s = some p) : p.isPlain = true := by
  cases hv with
  | immediate hv => cases hv
  | contents hp' hplain => exact Option.some.inj (hp'.symm.trans hp) ▸ hplain

theorem part (hv : h.PlainTree (.ref s)) (hp : h.find? s = some p) (hx : x ∈ p.parts) :
    h.PlainTree x := by
  cases hv with
  | immediate hv => cases hv
  | contents hp' _ hparts =>
    obtain rfl := Option.some.inj (hp.symm.trans hp')
    exact hparts x hx

theorem of_occurs (hv : h.PlainTree v) (hw : h.Occurs w v) : h.PlainTree w := by
  induction hw with
  | self => exact hv
  | part hp hx _ ih => exact ih (hv.part hp hx)

/-- **No value occurs in one of its own parts.** -/
theorem not_occurs (hv : h.PlainTree (.ref s)) (hp : h.find? s = some p) (hx : x ∈ p.parts) :
    ¬h.Occurs (.ref s) x := by
  generalize hs : Value.ref s = v at hv
  induction hv generalizing s p x with
  | immediate hv => exact absurd hv (by rw [← hs]; nofun)
  | contents hp' _ _ ih =>
    cases hs
    obtain rfl := Option.some.inj (hp.symm.trans hp')
    intro hocc
    -- a part in which the value occurs would occur in one of its own parts
    cases hocc with
    | self => exact ih _ hx hp hx rfl .self
    | part hq hy hocc => exact ih _ hx hq hy rfl (.trans (.part hp hx .self) hocc)

end PlainTree

/-- The slots that occur in a value. -/
def slotsIn (h : Heap) (v : Value) : Set Slot := { s | h.Occurs (.ref s) v ∧ (h.find? s).isSome }

theorem finite_slotsIn (h : Heap) (v : Value) : (h.slotsIn v).Finite := by
  refine (Set.finite_lt_nat h.cells.size).subset ?_
  rintro s ⟨-, hs⟩
  obtain ⟨p, hp⟩ := Option.isSome_iff_exists.1 hs
  obtain ⟨c, hc, -⟩ := exists_cell?_of_find? hp
  exact lt_size_of_cell? hc

/-- **Plain data that does not contain itself**: whatever occurs in the value is in use and plain,
and no slot occurs in what it holds. -/
theorem plainTree_iff : h.PlainTree v ↔
    (∀ w, h.Occurs w v → h.Names w) ∧
      ∀ s p, h.Occurs (.ref s) v → h.find? s = some p →
        p.isPlain = true ∧ ∀ x ∈ p.parts, ¬h.Occurs (.ref s) x := by
  constructor
  · intro hv
    refine ⟨fun w hw => (hv.of_occurs hw).names, fun s p hs hp => ?_⟩
    exact ⟨(hv.of_occurs hs).isPlain hp, fun x hx => (hv.of_occurs hs).not_occurs hp hx⟩
  · intro ⟨hnames, hslots⟩
    -- a part has fewer slots in it, since that of the whole is not among them
    induction hn : (h.slotsIn v).ncard using Nat.strong_induction_on generalizing v with
    | h n ih =>
      cases v with
      | ref s =>
        obtain ⟨p, hp⟩ := Option.isSome_iff_exists.1 (hnames _ .self s rfl)
        obtain ⟨hplain, hnot⟩ := hslots s p .self hp
        refine .contents hp hplain fun x hx => ?_
        have hbelow {w : Value} (hw : h.Occurs w x) : h.Occurs w (.ref s) := .part hp hx hw
        refine ih _ ?_ (fun w hw => hnames w (hbelow hw))
          (fun t q ht => hslots t q (hbelow ht)) rfl
        rw [← hn]
        refine Set.ncard_lt_ncard ⟨fun t ht => ⟨hbelow ht.1, ht.2⟩, fun hsub => ?_⟩
          (h.finite_slotsIn _)
        exact hnot x hx (hsub ⟨.self, Option.isSome_iff_exists.2 ⟨p, hp⟩⟩).1
      | _ => exact .immediate rfl

/-- Plain data has so many levels. -/
theorem PlainTree.eventually_nesting_le (hv : h.PlainTree v) :
    ∀ᶠ n : ℕ in atTop, h.nesting v ≤ n := by
  induction hv with
  | immediate hv =>
    refine Eventually.of_forall fun n => ?_
    rw [nesting_eq_zero fun s p hs => by rw [hs] at hv; cases hv]
    exact bot_le
  | contents hp _ _ ih =>
    refine eventually_of_succ ((eventually_forall_mem ih).mono fun n hn => ?_)
    rw [Nat.cast_add, Nat.cast_one]
    exact nesting_le hp hn

/-! ## Snapshots -/

/-- A way down to a value that is long enough to go on, and that does not lead through anything in
the value. -/
structure WayTo (h : Heap) (slots : Nat) (path : List Slot) (v : Value) : Prop where
  nodup : path.Nodup
  inUse : ∀ s ∈ path, s < h.cells.size
  enough : h.cells.size ≤ slots + path.length
  avoids : ∀ s ∈ path, ¬h.Occurs (.ref s) v

theorem WayTo.start (h : Heap) (v : Value) : h.WayTo h.cells.size [] v where
  nodup := List.nodup_nil
  inUse _ hs := absurd hs List.not_mem_nil
  enough := Nat.le_refl _
  avoids _ hs := absurd hs List.not_mem_nil

/-- The way leads on to the parts, with one slot less to go. -/
theorem WayTo.step {n : Nat} {path : List Slot} (hway : h.WayTo n path (.ref s))
    (hv : h.PlainTree (.ref s)) (hp : h.find? s = some p) :
    s ∉ path ∧ ∃ m, n = m + 1 ∧ ∀ x ∈ p.parts, h.WayTo m (s :: path) x := by
  have hmem : s ∉ path := fun hmem => hway.avoids s hmem .self
  obtain ⟨c, hc, -⟩ := exists_cell?_of_find? hp
  have hlt : ∀ t ∈ s :: path, t < h.cells.size :=
    List.forall_mem_cons.2 ⟨lt_size_of_cell? hc, hway.inUse⟩
  have hnodup : (s :: path).Nodup := List.nodup_cons.2 ⟨hmem, hway.nodup⟩
  have hle := length_le_of_nodup hnodup hlt
  have henough := hway.enough
  rw [List.length_cons] at hle
  obtain ⟨m, rfl⟩ : ∃ m, n = m + 1 := ⟨n - 1, by omega⟩
  refine ⟨hmem, m, rfl, fun x hx => ⟨hnodup, hlt, by rw [List.length_cons]; omega, ?_⟩⟩
  refine List.forall_mem_cons.2 ⟨hv.not_occurs hp hx, fun t ht hocc => ?_⟩
  exact hway.avoids t ht (.part hp hx hocc)

/-- What is written out does not depend on the way. -/
theorem PlainTree.snapshotFrom_eq {m n : Nat} {path path' : List Slot} (hv : h.PlainTree v)
    (hway : h.WayTo m path v) (hway' : h.WayTo n path' v) :
    h.snapshotFrom m path v = h.snapshotFrom n path' v := by
  induction hv generalizing m n path path' with
  | @immediate v hv =>
    cases v with
    | ref s => cases hv
    | _ => cases m <;> cases n <;> rfl
  | @contents s p hp hplain htrees ih =>
    have hv : h.PlainTree (.ref s) := .contents hp hplain htrees
    obtain ⟨hmem, m, rfl, hparts⟩ := hway.step hv hp
    obtain ⟨hmem', n, rfl, hparts'⟩ := hway'.step hv hp
    rw [snapshotFrom, snapshotFrom, read_eq_ok_iff.2 hp]
    simp only [if_neg hmem, if_neg hmem']
    exact objectOf_congr (fun x hx => ih x hx (hparts x hx) (hparts' x hx)) fun t _ => rfl

/-- **The object for contents is made of the objects for the parts.** -/
theorem PlainTree.snapshot_ref (hv : h.PlainTree (.ref s)) (hp : h.find? s = some p) :
    h.snapshot (.ref s) = h.objectOf h.snapshot p := by
  obtain ⟨-, m, hm, hway⟩ := (WayTo.start h (.ref s)).step hv hp
  rw [snapshot_eq_snapshotFrom, hm, snapshotFrom, read_eq_ok_iff.2 hp]
  simp only [if_neg List.not_mem_nil]
  refine objectOf_congr (fun x hx => ?_) fun t _ => rfl
  rw [snapshot_eq_snapshotFrom]
  exact (hv.part hp hx).snapshotFrom_eq (hway x hx) (.start h x)

end Heap

/-! ## What is written out -/

/-- What is written out of plain contents, where it is known of the parts. -/
inductive Payload.Written (R : Value → Object → Prop) : Payload → Object → Prop
  | str (text : String) : Written R (.str text) (.str text)
  | bytes (data : List UInt8) : Written R (.bytes data) (.bytes data)
  | longInt (n : Int) : Written R (.longInt n) (.bigInt n)
  | list {items : List Value} {os : List Object} (h : List.Forall₂ R items os) :
      Written R (.list items) (.list os)
  | tuple {items : List Value} {os : List Object} (h : List.Forall₂ R items os) :
      Written R (.tuple items) (.tuple os)
  | dict {entries : List Entry} {pairs : List (Object × Object)}
      (h : List.Forall₂ (fun e pair => R e.key.value pair.1 ∧ R e.value pair.2) entries pairs) :
      Written R (.dict entries) (.dict pairs)
  | set {elements : List HashedKey} {os : List Object}
      (h : List.Forall₂ (fun k o => R k.value o) elements os) :
      Written R (.set elements) (.set os)
  | range (p : Progression) : Written R (.range p) (.range p.start p.stop p.step)
  | slice {a b c : Value} {x y z : Object} (ha : R a x) (hb : R b y) (hc : R c z) :
      Written R (.slice a b c) (.slice x y z)

/-- What is written out of plain data. -/
def Heap.Writes (h : Heap) (v : Value) (o : Object) : Prop :=
  h.PlainTree v ∧ h.snapshot v = .ok o

namespace Heap

variable {h k : Heap} {s : Slot} {p : Payload} {v : Value} {o : Object}

theorem forall₂_of_mapM {α β : Type} {R : α → β → Prop} {f : α → Except Fault β} {xs : List α}
    {ys : List β} (hR : ∀ x ∈ xs, ∀ y, f x = .ok y → R x y) (hf : xs.mapM f = .ok ys) :
    List.Forall₂ R xs ys := by
  induction xs generalizing ys with
  | nil =>
    obtain rfl : [] = ys := Except.ok.inj hf
    exact .nil
  | cons x xs ih =>
    obtain ⟨y, rest, hy, hrest, rfl⟩ := mapM_cons_eq_ok.1 hf
    exact .cons (hR x List.mem_cons_self y hy)
      (ih (fun x' hx' => hR x' (List.mem_cons_of_mem x hx')) hrest)

theorem written_of_objectOf {R : Value → Object → Prop} {part : Value → Except Fault Object}
    (hplain : p.isPlain = true) (hR : ∀ x ∈ p.parts, ∀ o, part x = .ok o → R x o)
    (ho : h.objectOf part p = .ok o) : p.Written R o := by
  cases p with
  | str text => cases ho; exact .str text
  | bytes data => cases ho; exact .bytes data
  | longInt n => cases ho; exact .longInt n
  | range r => cases ho; exact .range r
  | list items =>
    obtain ⟨os, hos, rfl⟩ := map_eq_ok.1 ho
    exact .list (forall₂_of_mapM hR hos)
  | tuple items =>
    obtain ⟨os, hos, rfl⟩ := map_eq_ok.1 ho
    exact .tuple (forall₂_of_mapM hR hos)
  | set elements =>
    obtain ⟨os, hos, rfl⟩ := map_eq_ok.1 ho
    exact .set (forall₂_of_mapM (fun e he => hR _ (List.mem_map_of_mem he)) hos)
  | dict entries =>
    obtain ⟨pairs, hpairs, rfl⟩ := map_eq_ok.1 ho
    refine .dict (forall₂_of_mapM (fun e he pair hpair => ?_) hpairs)
    obtain ⟨key, hkey, hpair⟩ := bind_eq_ok.1 hpair
    obtain ⟨value, hvalue, hpair⟩ := bind_eq_ok.1 hpair
    cases hpair
    exact ⟨hR _ (List.mem_flatMap.2 ⟨e, he, by simp [Entry.parts]⟩) _ hkey,
      hR _ (List.mem_flatMap.2 ⟨e, he, by simp [Entry.parts]⟩) _ hvalue⟩
  | slice a b c =>
    obtain ⟨x, hx, ho⟩ := bind_eq_ok.1 ho
    obtain ⟨y, hy, ho⟩ := bind_eq_ok.1 ho
    obtain ⟨z, hz, ho⟩ := bind_eq_ok.1 ho
    cases ho
    exact .slice (hR a (by simp [Payload.parts]) x hx) (hR b (by simp [Payload.parts]) y hy)
      (hR c (by simp [Payload.parts]) z hz)
  | _ => cases hplain

end Heap

end ValueHeap
