import Mathlib.Order.Defs.Unbundled
import ValueHeap.Proofs.Counts
import ValueHeap.Proofs.Heap.Reach

/-!
# Where references lead in a circle

Contents refer to what was in use when they were put together, so their references lead back to
older contents.  Only a list can be changed afterwards, and can be made to refer to something
younger, or to itself.  The slots alone do not show this, since one that was emptied may hold
something younger than its neighbours: what tells old from young is the layers.

What follows references without looking at what it has met before can therefore go on for ever only
by way of lists.  The hash of a key stops at lists, and the bases of a class are classes.

## What is here

* `Heap.Layered.exists_list` — a circle of references leads through a list.
* `Heap.Inherits` — the classes on the chain of bases of a class, and
  `Heap.chainMeets_eq_true_iff`.
* `Heap.isPartialOrder_isSubtype` — the types in a heap are ordered.
* `circles_lead_through_lists` — all of this for whatever can come about.
-/

set_option autoImplicit false

namespace ValueHeap

namespace Heap

variable {h : Heap} {s t : Slot} {ty : TypeRef}

/-! ## Circles -/

/-- Along references from contents other than lists, ranks go down. -/
theorem rank_lt_of_isChain {rank : Slot → Nat}
    (hrank : ∀ s p, h.find? s = some p → p.isList = false → ∀ t ∈ p.children, rank t < rank s)
    {path : List Slot} (hpath : (s :: path).IsChain h.Refers)
    (hlists : ∀ u ∈ s :: path, ∀ p, h.find? u = some p → p.isList = false) :
    ∀ t ∈ path, rank t < rank s := by
  induction path generalizing s with
  | nil => exact fun t ht => absurd ht List.not_mem_nil
  | cons u rest ih =>
    rw [List.isChain_cons_cons] at hpath
    obtain ⟨⟨p, hp, hu⟩, hrest⟩ := hpath
    have hus := hrank s p hp (hlists s List.mem_cons_self p hp) u hu
    intro t ht
    rcases List.mem_cons.1 ht with rfl | ht
    · exact hus
    · exact Nat.lt_trans (ih hrest (fun v hv => hlists v (List.mem_cons_of_mem s hv)) t ht) hus

/-- **A circle of references leads through a list.** -/
theorem Layered.exists_list (hl : h.Layered) {path : List Slot}
    (hpath : (s :: path).IsChain h.Refers) (hlast : path.getLast? = some s) :
    ∃ t ∈ path, ∃ items, h.find? t = some (.list items) := by
  obtain ⟨rank, hrank⟩ := hl
  have hs : s ∈ path := List.mem_of_getLast? hlast
  by_contra hnone
  have hlists : ∀ u ∈ s :: path, ∀ p, h.find? u = some p → p.isList = false := by
    intro u hu p hp
    have hmem : u ∈ path := (List.mem_cons.1 hu).elim (fun heq => heq ▸ hs) id
    cases p with
    | list items => exact absurd ⟨u, hmem, items, hp⟩ hnone
    | _ => rfl
  exact Nat.lt_irrefl _ (rank_lt_of_isChain hrank hpath hlists s hs)

/-! ## Chains of bases -/

/-- A class has another one as its base. -/
def HasBase (h : Heap) (s t : Slot) : Prop := ∃ name, h.find? s = some (.userClass name (some t))

/-- A class is another one, or inherits from it. -/
def Inherits (h : Heap) : Slot → Slot → Prop := Relation.ReflTransGen h.HasBase

/-- When the walk along the bases has an answer, it tells whether a class inherits from another. -/
theorem chainMeets_eq_true_iff {steps : Nat} {b : Bool} (hb : h.chainMeets t steps s = .ok b) :
    b = true ↔ h.Inherits s t := by
  induction steps generalizing s with
  | zero => cases hb
  | succ steps ih =>
    rw [chainMeets] at hb
    split at hb
    · next heq =>
      subst heq
      cases hb
      exact iff_of_true rfl .refl
    · next hne =>
      -- a class that is not the one sought after inherits from it only by way of its base
      have hbase (u : Slot) (hu : h.Inherits s t) (hfirst : ∀ v, h.HasBase s v → v = u) :
          h.Inherits u t := by
        obtain heq | ⟨v, hv, hvt⟩ := Relation.ReflTransGen.cases_head hu
        · exact absurd heq hne
        · exact hfirst v hv ▸ hvt
      split at hb
      · next name base hread =>
        rw [read_eq_ok_iff] at hread
        refine (ih hb).trans ⟨fun hu => .head ⟨name, hread⟩ hu, fun hs => hbase base hs ?_⟩
        rintro v ⟨other, hv⟩
        cases hread.symm.trans hv
        rfl
      · next p hp hread =>
        cases hb
        refine iff_of_false Bool.false_ne_true fun hs => ?_
        obtain heq | ⟨v, ⟨name, hv⟩, -⟩ := Relation.ReflTransGen.cases_head hs
        · exact hne heq
        · rw [read_eq_ok_iff, hv] at hread
          exact hp name v (Option.some.inj hread).symm
      · cases hb

/-- A class inherits from classes on layers below. -/
theorem Inherits.rank_le {rank : Slot → Nat}
    (hrank : ∀ s p, h.find? s = some p → p.isList = false → ∀ t ∈ p.children, rank t < rank s)
    (hst : h.Inherits s t) : s = t ∨ rank t < rank s := by
  induction hst with
  | refl => exact Or.inl rfl
  | @tail u v _ hlast ih =>
    obtain ⟨name, hu⟩ := hlast
    have hvu := hrank u _ hu rfl v (by simp [Payload.children])
    rcases ih with rfl | hlt
    · exact Or.inr hvu
    · exact Or.inr (Nat.lt_trans hvu hlt)

/-- Two classes that inherit from each other are the same. -/
theorem Inherits.antisymm (hl : h.Layered) (hst : h.Inherits s t) (hts : h.Inherits t s) :
    s = t := by
  obtain ⟨rank, hrank⟩ := hl
  rcases hst.rank_le hrank with heq | hlt
  · exact heq
  · rcases hts.rank_le hrank with heq | hlt'
    · exact heq.symm
    · omega

/-- However many steps are allowed beyond the number of slots, the walk along the bases ends, and
with the same answer. -/
theorem exists_chainMeets_all (hc : h.Coherent) (hs : h.GoodType (.userClass s)) (t : Slot) :
    ∃ b, ∀ steps, h.cells.size < steps → h.chainMeets t steps s = .ok b := by
  obtain ⟨rank, hsize, hrank⟩ := hc.layered.bounded hc.closed
  obtain ⟨name, base, hp⟩ := hs s rfl
  have hend (steps : Nat) (hsteps : h.cells.size < steps) :
      ∃ b, h.chainMeets t steps s = .ok b :=
    exists_chainMeets hc hrank t (Nat.lt_trans (hsize s _ hp) hsteps) hs
  obtain ⟨b, hb⟩ := hend (h.cells.size + 1) (Nat.lt_succ_self _)
  refine ⟨b, fun steps hsteps => ?_⟩
  obtain ⟨b', hb'⟩ := hend steps hsteps
  rw [hb', Bool.eq_iff_iff.2 ((chainMeets_eq_true_iff hb').trans (chainMeets_eq_true_iff hb).symm)]

/-! ## The order of types -/

theorem isSubtype_classes (hc : h.Coherent) (hs : h.GoodType (.userClass s)) :
    h.isSubtype (.userClass s) (.userClass t) = .ok true ↔ h.Inherits s t := by
  obtain ⟨b, hb⟩ := exists_isSubtype (t := .userClass t) hc hs
  rw [hb, Except.ok.injEq]
  exact chainMeets_eq_true_iff hb

end Heap

namespace BuiltinType

theorem isSubtypeOf_iff {a b : BuiltinType} :
    a.isSubtypeOf b = true ↔ a = b ∨ b = object ∨ a = bool ∧ b = int := by
  have hbase : a.base = some b ∨ a.base.bind base = some b ↔
      (a ≠ object ∧ b = object) ∨ a = bool ∧ b = int := by
    cases a <;> simp [base, eq_comm, or_comm]
  rw [isSubtypeOf, Bool.or_eq_true, Bool.or_eq_true, beq_iff_eq, beq_iff_eq, beq_iff_eq, or_assoc,
    hbase]
  by_cases ha : a = object
  · subst ha
    simp [eq_comm]
  · simp [ha]

theorem isSubtypeOf_trans {a b c : BuiltinType} (hab : a.isSubtypeOf b = true)
    (hbc : b.isSubtypeOf c = true) : a.isSubtypeOf c = true := by
  rw [isSubtypeOf_iff] at *
  grind

theorem isSubtypeOf_antisymm {a b : BuiltinType} (hab : a.isSubtypeOf b = true)
    (hba : b.isSubtypeOf a = true) : a = b := by
  rw [isSubtypeOf_iff] at hab hba
  grind

theorem eq_object_of_isSubtypeOf {b : BuiltinType} (hb : object.isSubtypeOf b = true) :
    b = object := by
  rw [isSubtypeOf_iff] at hb
  grind

end BuiltinType

namespace Heap

variable {h : Heap}

/-- **The types in a heap are ordered** by which lies below which: the builtin types, and the
classes in use. -/
theorem isPartialOrder_isSubtype (hc : h.Coherent) :
    IsPartialOrder {ty // h.GoodType ty} fun s t => h.isSubtype s t = .ok true where
  refl := by
    rintro ⟨_ | s, hs⟩
    · exact congrArg Except.ok (BuiltinType.isSubtypeOf_refl _)
    · exact (isSubtype_classes hc hs).2 .refl
  trans := by
    rintro ⟨_ | s, hs⟩ ⟨_ | t, ht⟩ ⟨_ | u, hu⟩ hst htu
    · exact congrArg Except.ok
        (BuiltinType.isSubtypeOf_trans (Except.ok.inj hst) (Except.ok.inj htu))
    · cases htu
    · cases hst
    · cases hst
    · -- above a class there is no builtin type but `object`, and nothing is above that
      obtain rfl := beq_iff_eq.1 (Except.ok.inj hst)
      obtain rfl := BuiltinType.eq_object_of_isSubtypeOf (Except.ok.inj htu)
      rfl
    · cases htu
    · exact htu
    · exact (isSubtype_classes hc hs).2
        (((isSubtype_classes hc hs).1 hst).trans ((isSubtype_classes hc ht).1 htu))
  antisymm := by
    rintro ⟨_ | s, hs⟩ ⟨_ | t, ht⟩ hst hts
    · obtain rfl := BuiltinType.isSubtypeOf_antisymm (Except.ok.inj hst) (Except.ok.inj hts)
      rfl
    · cases hst
    · cases hts
    · obtain rfl := Inherits.antisymm hc.layered ((isSubtype_classes hc hs).1 hst)
        ((isSubtype_classes hc ht).1 hts)
      rfl

end Heap

/-- **Whatever can come about has circles only by way of lists.**  If references lead from a slot
back to it, one of the slots on the way holds a list.  So hashing a value in use comes to an end,
and however many levels it may go down beyond the number of slots, it comes to the same; the walk
along the bases of a class comes to an end likewise.  The builtin types and the classes in use are
ordered by which lies below which. -/
theorem circles_lead_through_lists {budget : Budget} {c : Custody} (hc : Reachable budget c) :
    (∀ (s : Slot) (path : List Slot), (s :: path).IsChain c.heap.Refers →
        path.getLast? = some s → ∃ t ∈ path, ∃ items, c.heap.find? t = some (.list items)) ∧
      (∀ v, c.heap.Names v → ∃ r, c.heap.keyHash v = .ok r ∧
        ∀ levels, c.heap.cells.size < levels → c.heap.keyHashWithin levels v = .ok r) ∧
      (∀ s, c.heap.GoodType (.userClass s) → ∀ t, ∃ b,
        c.heap.isSubtype (.userClass s) (.userClass t) = .ok b ∧
          ∀ steps, c.heap.cells.size < steps → c.heap.chainMeets t steps s = .ok b) ∧
      IsPartialOrder {ty // c.heap.GoodType ty} fun s t => c.heap.isSubtype s t = .ok true := by
  have hcoherent := hc.sound.coherent
  refine ⟨fun s path hpath hlast => hcoherent.layered.exists_list hpath hlast, fun v hv => ?_,
    fun s hs t => ?_, Heap.isPartialOrder_isSubtype hcoherent⟩
  · obtain ⟨r, hr⟩ := Heap.exists_keyHash hcoherent hv
    exact ⟨r, hr, fun levels hlevels => Heap.keyHashWithin_mono hlevels hr⟩
  · obtain ⟨b, hb⟩ := Heap.exists_chainMeets_all hcoherent hs t
    exact ⟨b, hb _ (Nat.lt_succ_self _), hb⟩

/-- Two classes, of which the second inherits from the first, and a list that has been put into
itself: the list is on the circle, its hash is asked for without going round it, and the first class
does not inherit from the second. -/
theorem circles_lead_through_lists_self :
    ∃ c : Custody, Reachable .untracked c ∧ [2, 2].IsChain c.heap.Refers ∧
      (∃ t ∈ [2], ∃ items, c.heap.find? t = some (.list items)) ∧
      c.heap.keyHash (.ref 2) = .ok none ∧
      c.heap.isSubtype (.userClass 1) (.userClass 0) = .ok true ∧
      c.heap.isSubtype (.userClass 0) (.userClass 1) ≠ .ok true := by
  let base : Option Cell := some ⟨2, .userClass "A" none⟩
  let derived : Option Cell := some ⟨1, .userClass "B" (some 0)⟩
  have hbase : Reachable .untracked
      ⟨⟨#[some ⟨1, .userClass "A" none⟩], [], .untracked, 0⟩, {.ref 0}⟩ :=
    Reachable.start.ask (.newClass "A" none) [.ref 0] (by decide) (by decide)
      (fun _ hp => by cases hp) trivial rfl rfl (by decide)
  have hclass : Reachable .untracked ⟨⟨#[base, derived], [], .untracked, 0⟩, {.ref 0, .ref 1}⟩ :=
    hbase.ask (.newClass "B" (some (.ref 0))) [.ref 1] (by decide) (by decide)
      (fun _ hp => by cases hp) trivial rfl rfl (by decide)
  have hlist : Reachable .untracked ⟨⟨#[base, derived, some ⟨1, .list []⟩], [], .untracked, 0⟩,
      {.ref 0, .ref 1, .ref 2}⟩ :=
    hclass.ask (.build (.list [])) [.ref 2] (by decide) (by decide)
      (fun _ hp => by cases hp) trivial rfl rfl (by decide)
  have hclone : Reachable .untracked ⟨⟨#[base, derived, some ⟨2, .list []⟩], [], .untracked, 0⟩,
      {.ref 0, .ref 1, .ref 2, .ref 2}⟩ :=
    hlist.ask (.clone (.ref 2)) [.ref 2] (by decide) (by decide)
      (fun _ hp => by cases hp) trivial rfl rfl (by decide)
  let h : Heap := ⟨#[base, derived, some ⟨2, .list [.ref 2]⟩], [], .untracked, 0⟩
  have hpush : Reachable .untracked ⟨h, {.ref 0, .ref 1, .ref 2}⟩ :=
    hclone.ask (.push 2 (.ref 2)) [] (by decide) (by decide)
      (fun _ hp => by cases hp) ⟨_, rfl⟩ rfl rfl (by decide)
  have hmain := circles_lead_through_lists hpush
  have hcircle : [2, 2].IsChain h.Refers :=
    .cons_cons ⟨.list [.ref 2], rfl, List.mem_singleton_self 2⟩ (.singleton 2)
  have hbelow : h.isSubtype (.userClass 1) (.userClass 0) = .ok true := rfl
  have hgood (s : Slot) (name : String) (b : Option Slot)
      (hs : h.find? s = some (.userClass name b)) : h.GoodType (.userClass s) := by
    rintro _ ⟨⟩
    exact ⟨name, b, hs⟩
  obtain ⟨r, hr, -⟩ := hmain.2.1 (.ref 2) (hpush.names (by decide))
  refine ⟨_, hpush, hcircle, hmain.1 2 [2] hcircle rfl, ?_, hbelow, fun habove => ?_⟩
  · cases r with
    | none => exact hr
    | some word => cases hr
  · have hsame := hmain.2.2.2.antisymm ⟨.userClass 0, hgood 0 "A" none rfl⟩
      ⟨.userClass 1, hgood 1 "B" (some 0) rfl⟩ habove hbelow
    cases hsame

end ValueHeap
