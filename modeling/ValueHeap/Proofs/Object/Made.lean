import ValueHeap.Proofs.Build
import ValueHeap.Proofs.Heap.Limit
import ValueHeap.Proofs.Object.Finding
import ValueHeap.Proofs.Yields

/-!
# Values made for objects

While a value is built, the values that are done spell the objects that they were made for.  Each of
them has slots of its own, which were not in use at the start.  A dict or a set under way moreover
has keys that fit and that have been told apart.

## What is here

* `Heap.Made` — values that were made for objects, on top of a heap.
* `Heap.Made.concat`, `Heap.Made.allocate` and `Heap.Made.of_extends` — one value more, contents
  that are placed, and what is left when others are released.
* `Heap.MadeEntries` and `Heap.MadeElements` — the entries of a dict and the elements of a set under
  way.
-/

set_option autoImplicit false

namespace ValueHeap

/-! ## What operations leave -/

namespace Heap

/-- Releasing references only empties slots, and leaves the levels alone. -/
theorem release_beside (h : Heap) (pending : List Slot) :
    (h.release pending).2.Extends h ∧ (h.release pending).2.levelsLeft = h.levelsLeft :=
  ⟨h.steady_extends.release (.refl h) pending,
    (OnLevel.steady.release (h := h) ⟨rfl, rfl⟩ pending).levelsLeft_eq⟩

end Heap

namespace Action

variable {α : Type} {P Q : α → Heap → Prop} {h : Heap}

theorem yields_of_lands {bad : Heap → Prop} {o : Outcome α} (ho : o.Lands P bad) : o.Yields P :=
  fun _ ha => ho.of_ok ha

theorem yields_and {o : Outcome α} (hp : o.Yields P) (hq : o.Yields Q) :
    o.Yields fun a k => P a k ∧ Q a k :=
  fun a ha => ⟨hp a ha, hq a ha⟩

theorem yields_release (vs : List Value) :
    (release vs h).Yields fun _ k => k.Extends h ∧ k.levelsLeft = h.levelsLeft :=
  yields_change fun _ _ => h.release_beside (vs.filterMap Value.slot?)

/-- Contents are placed after they have been charged for. -/
theorem yields_placed (p : Payload) :
    (allocate p h).Yields fun v k => ∃ budget, h.budget.charge p.size = .ok budget ∧
      v = .ref (Heap.place { h with budget } p).1 ∧ k = (Heap.place { h with budget } p).2 := by
  rw [allocate, Heap.allocate]
  cases h.budget.charge p.size with
  | ok budget =>
    rintro _ ⟨⟩
    exact ⟨budget, rfl, rfl, rfl⟩
  | error e =>
    cases e with
    | fault f => rintro _ ⟨⟩
    | error e => rcases h.release p.children with ⟨_ | _, k⟩ <;> rintro _ ⟨⟩

/-- Contents are placed in a slot that was empty. -/
theorem yields_allocated {p : Payload} (hfree : h.FreeExact) :
    (allocate p h).Yields fun v k => ∃ s, v = .ref s ∧ h.find? s = none ∧ k.find? s = some p ∧
      h.Extends k ∧ k.levelsLeft = h.levelsLeft := by
  refine yields_mono (yields_placed p) ?_
  rintro _ _ ⟨budget, hb, rfl, rfl⟩
  have hfree' : ({ h with budget } : Heap).FreeExact := ⟨hfree.nodup, hfree.mem_iff⟩
  refine ⟨_, rfl, congrArg (Option.map Cell.payload) (Heap.cell?_place_fst hfree' p),
    Heap.find?_of_cell? (Heap.cell?_place_self hfree' p), Heap.extends_place hfree' p, ?_⟩
  simp only [Heap.levelsLeft, Budget.depthLimit, Heap.budget_place, Heap.depth_place,
    Budget.limits_charge hb]

end Action

/-! ## Values made for objects -/

namespace Heap

variable {start h k : Heap} {held : Multiset Slot} {vs vs' : List Value} {os os' : List Object}
  {v : Value} {o : Object} {slots : Multiset Slot} {levels : Nat}

theorem Spells.split (hs : h.Spells levels (vs ++ vs') (os ++ os') slots)
    (hlength : vs.length = os.length) :
    ∃ a b, slots = a + b ∧ h.Spells levels vs os a ∧ h.Spells levels vs' os' b := by
  induction vs generalizing os slots with
  | nil =>
    obtain rfl := List.length_eq_zero_iff.1 hlength.symm
    exact ⟨0, slots, (zero_add slots).symm, .nil, hs⟩
  | cons v vs ih =>
    obtain ⟨o, os, rfl⟩ := List.exists_cons_of_length_eq_add_one hlength.symm
    obtain ⟨_, _, a, b, heq, rfl, hv, hrest⟩ := hs.uncons
    cases heq
    obtain ⟨c, d, rfl, hvs, hvs'⟩ := ih hrest (Nat.succ.inj hlength)
    exact ⟨a + c, d, (add_assoc a c d).symm, hv.cons hvs, hvs'⟩

/-- A slot that is empty in a heap is empty in one that holds less. -/
theorem Extends.find?_none {s : Slot} (hext : start.Extends h) (hs : h.find? s = none) :
    start.find? s = none := by
  refine Option.eq_none_iff_forall_ne_some.2 fun p hp => ?_
  rw [hext s p hp] at hs
  cases hs

/-- On top of what a heap holds, values are carried that spell objects.  As many levels are left,
and the slots of the values are new, each of them for one part of one value. -/
structure Made (start : Heap) (held : Multiset Slot) (h : Heap) (vs : List Value)
    (os : List Object) : Prop where
  carries : start.Carries held vs h
  levels : h.levelsLeft = start.levelsLeft
  spells : ∃ slots, h.Spells start.levelsLeft vs os slots ∧ slots.Nodup ∧
    ∀ s ∈ slots, start.find? s = none

theorem Made.refl (hs : h.Sound held) : h.Made held h [] [] where
  carries := .refl hs
  levels := rfl
  spells := ⟨0, .nil, Multiset.nodup_zero, fun s hs => absurd hs (Multiset.notMem_zero s)⟩

/-- A value that is made on top of others goes behind them. -/
theorem Made.concat (hh : start.Made held h vs os) (hk : h.Made (slotsOf vs + held) k [v] [o]) :
    start.Made held k (vs ++ [v]) (os ++ [o]) where
  carries := by
    rw [← Multiset.coe_add, add_comm]
    exact hh.carries.trans hk.carries
  levels := hk.levels.trans hh.levels
  spells := by
    obtain ⟨a, ha, hnodup, hfresh⟩ := hh.spells
    obtain ⟨b, hb, hnodup', hfresh'⟩ := hk.spells
    rw [hh.levels] at hb
    have hdisjoint : Disjoint a b := Multiset.disjoint_left.2 fun {s} hs hs' => by
      have hsome := ha.isSome hs
      rw [hfresh' s hs'] at hsome
      cases hsome
    refine ⟨a + b, (ha.mono hk.carries.kept).append hb,
      Multiset.nodup_add.2 ⟨hnodup, hnodup', hdisjoint⟩, fun s hs => ?_⟩
    rcases Multiset.mem_add.1 hs with hs | hs
    · exact hfresh s hs
    · exact hh.carries.kept.find?_none (hfresh' s hs)

/-- Values that are left when others are released are still made for their objects. -/
theorem Made.of_extends (hs : h.Spells start.levelsLeft vs os slots) (hnodup : slots.Nodup)
    (hfresh : ∀ s ∈ slots, start.find? s = none) (hkh : k.Extends h)
    (hlevels : k.levelsLeft = start.levelsLeft) (hk : start.Carries held vs k) :
    start.Made held k vs os where
  carries := hk
  levels := hlevels
  spells := ⟨slots, hs.of_extends hkh hk.sound.closed fun _ hv => hk.names (Multiset.mem_coe.2 hv),
    hnodup, hfresh⟩

theorem keys_of_describes {p : Payload} {parts : List Object} (hp : p.Describes levels parts o) :
    p.children = p.parts.filterMap Value.slot? ∧ p.classSlots = [] := by
  cases hp <;> exact ⟨rfl, rfl⟩

/-- Contents that describe an object are placed, if their parts are made for its parts and their
keys fit. -/
theorem Made.allocate {p : Payload} {parts : List Object} (hstart : start.Sound held)
    (hh : start.Made held h p.parts parts) (hp : p.Describes start.levelsLeft parts o)
    (hkeys : h.KeysFit p.keys) :
    (Action.allocate p h).Yields fun v k => start.Made held k [v] [o] := by
  obtain ⟨hchildren, hclasses⟩ := keys_of_describes hp
  have hfit : h.Fits p := ⟨hkeys, fun _ hs => absurd (hclasses ▸ hs) List.not_mem_nil⟩
  have hslots : slotsOf p.parts = p.children := by rw [slotsOf_coe, hchildren]
  have hlands : (Action.allocate p h).Lands (fun v k => start.Carries held {v} k)
    (start.Carries held 0) := Action.lands_allocate hstart hh.carries hslots hfit
  refine Action.yields_mono (Action.yields_and (Action.yields_of_lands hlands)
    (Action.yields_allocated hh.carries.sound.free)) ?_
  rintro _ k ⟨hk, s, rfl, hempty, hself, hext, hlevels⟩
  obtain ⟨slots, hs, hnodup, hfresh⟩ := hh.spells
  refine ⟨hk, hlevels.trans hh.levels, s ::ₘ (slots + 0), .contents hself hp (hs.mono hext) .nil,
    ?_, ?_⟩
  · rw [add_zero]
    refine Multiset.nodup_cons.2 ⟨fun hmem => ?_, hnodup⟩
    have hsome := hs.isSome hmem
    rw [hempty] at hsome
    cases hsome
  · rw [add_zero]
    exact Multiset.forall_mem_cons.2 ⟨hh.carries.kept.find?_none hempty, hfresh⟩

/-- The last value spells the last object, with slots of its own. -/
theorem Made.last (hh : start.Made held h (vs ++ [v]) (os ++ [o])) :
    ∃ a b, h.Spells start.levelsLeft vs os a ∧ h.Spells start.levelsLeft [v] [o] b ∧
      (a + b).Nodup ∧ ∀ s ∈ a + b, start.find? s = none := by
  obtain ⟨slots, hs, hnodup, hfresh⟩ := hh.spells
  have hlength := hs.length_eq
  rw [List.length_append, List.length_append] at hlength
  obtain ⟨a, b, rfl, hvs, hv⟩ := hs.split (Nat.add_right_cancel hlength)
  exact ⟨a, b, hvs, hv, hnodup, hfresh⟩

/-- The last two values spell the last two objects, each with slots of its own. -/
theorem Made.last_two {w : Value} {q : Object}
    (hh : start.Made held h (vs ++ [v] ++ [w]) (os ++ [o] ++ [q])) :
    ∃ a b c, h.Spells start.levelsLeft vs os a ∧ h.Spells start.levelsLeft [v] [o] b ∧
      h.Spells start.levelsLeft [w] [q] c ∧ (a + b + c).Nodup ∧
      ∀ s ∈ a + b + c, start.find? s = none := by
  obtain ⟨_, c, hs, hw, hnodup, hfresh⟩ := hh.last
  have hlength := hs.length_eq
  rw [List.length_append, List.length_append] at hlength
  obtain ⟨a, b, rfl, hvs, hv⟩ := hs.split (Nat.add_right_cancel hlength)
  exact ⟨a, b, c, hvs, hv, hw, hnodup, hfresh⟩

/-- The entries of a dict under way, made for pairs of objects.  The keys fit and have been told
apart. -/
structure MadeEntries (start : Heap) (held : Multiset Slot) (h : Heap) (entries : List Entry)
    (pairs : List (Object × Object)) : Prop where
  made : start.Made held h (entries.flatMap Entry.parts) (pairs.flatMap Object.pairParts)
  fit : h.KeysFit (entries.map Entry.key)
  apart : Object.KeysApart start.levelsLeft (pairs.map Prod.fst)

/-- The elements of a set under way, made for objects.  They fit and have been told apart. -/
structure MadeElements (start : Heap) (held : Multiset Slot) (h : Heap)
    (elements : List HashedKey) (os : List Object) : Prop where
  made : start.Made held h (elements.map HashedKey.value) os
  fit : h.KeysFit elements
  apart : Object.KeysApart start.levelsLeft os

theorem MadeEntries.nil (hs : h.Sound held) : h.MadeEntries held h [] [] :=
  ⟨.refl hs, .nil h, .nil _⟩

theorem MadeElements.nil (hs : h.Sound held) : h.MadeElements held h [] [] :=
  ⟨.refl hs, .nil h, .nil _⟩

/-- The keys of entries go on fitting while more values are made. -/
theorem MadeEntries.keysFit {entries : List Entry} {pairs : List (Object × Object)}
    (hh : start.MadeEntries held h entries pairs)
    (hk : start.Made held k (entries.flatMap Entry.parts ++ vs) os) (hhk : h.Extends k) :
    k.KeysFit (entries.map Entry.key) :=
  hh.made.carries.keysFit hh.fit hk.carries hhk.agree fun _ hkey =>
    Multiset.mem_coe.2 (List.mem_append_left vs (Multiset.mem_coe.1 (mem_partsOf_of_key hkey)))

/-- Elements go on fitting while more values are made. -/
theorem MadeElements.keysFit {elements : List HashedKey}
    (hh : start.MadeElements held h elements os)
    (hk : start.Made held k (elements.map HashedKey.value ++ vs) os') (hhk : h.Extends k) :
    k.KeysFit elements :=
  hh.made.carries.keysFit hh.fit hk.carries hhk.agree fun _ hkey =>
    Multiset.mem_coe.2 (List.mem_append_left vs (Multiset.mem_coe.1 (mem_elementsOf hkey)))

end Heap

end ValueHeap
