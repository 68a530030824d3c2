import ValueHeap.Proofs.Counts
import ValueHeap.Proofs.Yields

/-!
# A copy corresponds to what was copied

The copy of a value is like the value, position by position.  A value without a slot is copied as
it is, and so is a reference to contents that cannot change.  A list, a tuple, a dict or a set gives
new contents of the same kind with the same keys, in a slot of its own at every position where it
occurs: what is shared within the value is not shared within the copy.

## What is here

* `Copied` — the correspondence, with the slots that were filled and those that are shared, each as
  often as it occurs in the copy.
* `Heap.Grown` — what has become of a heap while slots were filled and others were shared.
* `Copy.Faithful` and `Copy.faithful_within` — a copy corresponds, and the heap has grown by it.
* `deepCopy_corresponds` — **the correspondence for all that can come about**.
-/

set_option autoImplicit false

namespace ValueHeap

namespace Payload

/-- Whether a deep copy makes new contents for these. -/
def isRebuilt : Payload → Bool
  | list _ | tuple _ | dict _ | set _ => true
  | _ => false

/-- The parts that a deep copy goes into.  Keys of dicts and elements of sets are not among them. -/
def copiedParts : Payload → List Value
  | list items | tuple items => items
  | dict entries => entries.map Entry.value
  | _ => []

/-- Contents of the same kind are copied in the same way. -/
theorem isRebuilt_eq {p q : Payload} (hkind : q.kindName = p.kindName) :
    q.isRebuilt = p.isRebuilt := by
  cases p <;> cases q <;> first | rfl | simp [kindName] at hkind

/-- Contents of the same kind are as long if they have the same keys and as many parts to copy. -/
theorem length?_eq {p q : Payload} (hrebuilt : p.isRebuilt = true)
    (hkind : q.kindName = p.kindName) (hkeys : q.keys = p.keys)
    (hparts : q.copiedParts.length = p.copiedParts.length) : q.length? = p.length? := by
  cases p with
  | list vs | tuple vs | dict es =>
    cases q <;> simp_all [kindName, copiedParts, length?]
  | set es => cases q <;> simp_all [kindName, keys, length?]
  | _ => cases hrebuilt

end Payload

/-- Values of a heap `h` and their copies in `k`, one by one, with the slots filled for the copies
and with the slots that the copies share with the values. -/
inductive Copied (h k : Heap) :
    List Value → List Value → Multiset Slot → Multiset Slot → Prop
  | nil : Copied h k [] [] 0 0
  | immediate {v : Value} {vs ws : List Value} {fresh shared : Multiset Slot}
      (hv : v.slot? = none) (rest : Copied h k vs ws fresh shared) :
      Copied h k (v :: vs) (v :: ws) fresh shared
  | leaf {s : Slot} {p : Payload} {vs ws : List Value} {fresh shared : Multiset Slot}
      (hp : h.find? s = some p) (hleaf : p.isRebuilt = false)
      (rest : Copied h k vs ws fresh shared) :
      Copied h k (.ref s :: vs) (.ref s :: ws) fresh (s ::ₘ shared)
  /-- Contents of the same kind and length with the same keys, and with copies of the other
  parts. -/
  | rebuilt {s t : Slot} {p q : Payload} {vs ws : List Value}
      {fresh shared fresh' shared' : Multiset Slot} (hp : h.find? s = some p)
      (hnew : h.find? t = none) (hq : k.find? t = some q) (hrebuilt : p.isRebuilt = true)
      (hkind : q.kindName = p.kindName) (hlength : q.length? = p.length?) (hkeys : q.keys = p.keys)
      (hparts : Copied h k p.copiedParts q.copiedParts fresh shared)
      (rest : Copied h k vs ws fresh' shared') :
      Copied h k (.ref s :: vs) (.ref t :: ws) (t ::ₘ (fresh + fresh'))
        (slotsOf (elementsOf p.keys) + shared + shared')

namespace Copied

variable {h k l : Heap} {vs ws vs' ws' : List Value} {fresh shared fresh' shared' : Multiset Slot}

theorem mono (hkl : k.Extends l) (hc : Copied h k vs ws fresh shared) :
    Copied h l vs ws fresh shared := by
  induction hc with
  | nil => exact .nil
  | immediate hv _ ih => exact .immediate hv ih
  | leaf hp hleaf _ ih => exact .leaf hp hleaf ih
  | rebuilt hp hnew hq hrebuilt hkind hlength hkeys _ _ ihparts ih =>
    exact .rebuilt hp hnew (hkl _ _ hq) hrebuilt hkind hlength hkeys ihparts ih

theorem append (hc : Copied h k vs ws fresh shared) (hc' : Copied h k vs' ws' fresh' shared') :
    Copied h k (vs ++ vs') (ws ++ ws') (fresh + fresh') (shared + shared') := by
  induction hc with
  | nil => simpa using hc'
  | immediate hv _ ih => exact .immediate hv ih
  | leaf hp hleaf _ ih =>
    rw [Multiset.cons_add]
    exact .leaf hp hleaf ih
  | rebuilt hp hnew hq hrebuilt hkind hlength hkeys hparts _ _ ih =>
    rw [Multiset.cons_add, add_assoc, add_assoc]
    exact .rebuilt hp hnew hq hrebuilt hkind hlength hkeys hparts ih

/-- There are as many copies as values. -/
theorem length_eq (hc : Copied h k vs ws fresh shared) : ws.length = vs.length := by
  induction hc with
  | nil => rfl
  | immediate _ _ ih => exact congrArg (· + 1) ih
  | leaf _ _ _ ih => exact congrArg (· + 1) ih
  | rebuilt _ _ _ _ _ _ _ _ _ _ ih => exact congrArg (· + 1) ih

end Copied

/-! ## Heaps that have grown -/

/-- What has become of a heap: slots were filled, each with one reference, and further references
were taken to slots that were in use before. -/
structure Heap.Grown (h k : Heap) (fresh shared : Multiset Slot) : Prop where
  free : k.FreeExact
  /-- Every slot was filled for one reference. -/
  nodup : fresh.Nodup
  filled : ∀ s ∈ fresh, h.cell? s = none ∧ ∃ p, k.cell? s = some ⟨1, p⟩
  kept : ∀ s c, h.cell? s = some c →
    k.cell? s = some { c with refcount := c.refcount + shared.count s }
  others : ∀ s, h.cell? s = none → s ∉ fresh → k.cell? s = none

namespace Heap.Grown

variable {h g : Heap} {fresh shared : Multiset Slot} {s : Slot} {c : Cell} {p : Payload}

theorem refl (hf : h.FreeExact) : h.Grown h 0 0 where
  free := hf
  nodup := Multiset.nodup_zero
  filled _ hs := absurd hs (Multiset.notMem_zero _)
  kept _ _ hc := hc
  others _ hs _ := hs

theorem keeps (hg : h.Grown g fresh shared) : h.Extends g := by
  intro s p hp
  obtain ⟨c, hc, rfl⟩ := exists_cell?_of_find? hp
  rw [find?_of_cell? (hg.kept s c hc)]

/-- Nothing depends on the accounts and on the levels entered. -/
theorem beside (hg : h.Grown g fresh shared) (budget : Budget) (depth : Nat) :
    h.Grown { g with budget, depth } fresh shared :=
  ⟨⟨hg.free.nodup, hg.free.mem_iff⟩, hg.nodup, hg.filled, hg.kept, hg.others⟩

/-- One more reference to a slot that was in use before. -/
theorem retain (hg : h.Grown g fresh shared) (hs : (h.find? s).isSome) (hc : g.cell? s = some c) :
    h.Grown (g.put s { c with refcount := c.refcount + 1 }) fresh (s ::ₘ shared) where
  free := hg.free.put hc
  nodup := hg.nodup
  filled t ht := by
    obtain ⟨hnone, hp⟩ := hg.filled t ht
    have hne : s ≠ t := by
      rintro rfl
      rw [find?, hnone] at hs
      cases hs
    rw [cell?_put_of_ne hne]
    exact ⟨hnone, hp⟩
  kept t d hd := by
    have hkept := hg.kept t d hd
    by_cases hst : s = t
    · subst hst
      rw [hc] at hkept
      cases hkept
      rw [cell?_put_self hc, Multiset.count_cons_self]
      rfl
    · rw [cell?_put_of_ne hst, Multiset.count_cons_of_ne (Ne.symm hst)]
      exact hkept
  others t ht hfresh := by
    have hne : s ≠ t := by
      rintro rfl
      rw [find?, ht] at hs
      cases hs
    rw [cell?_put_of_ne hne]
    exact hg.others t ht hfresh

/-- One more slot filled. -/
theorem place (hg : h.Grown g fresh shared) (p : Payload) :
    h.Grown (g.place p).2 ((g.place p).1 ::ₘ fresh) shared ∧ h.find? (g.place p).1 = none := by
  have hempty := cell?_place_fst hg.free p
  have hnew : h.cell? (g.place p).1 = none := Option.eq_none_iff_forall_ne_some.2 fun c hc => by
    rw [hg.kept _ c hc] at hempty
    cases hempty
  have hfresh : (g.place p).1 ∉ fresh := fun hmem => by
    obtain ⟨-, q, hq⟩ := hg.filled _ hmem
    rw [hq] at hempty
    cases hempty
  refine ⟨⟨hg.free.place p, Multiset.nodup_cons.2 ⟨hfresh, hg.nodup⟩, fun s hs => ?_,
    fun s c hc => ?_, fun s hs hne => ?_⟩, by rw [find?, hnew]; rfl⟩
  · rcases Multiset.mem_cons.1 hs with rfl | hs
    · exact ⟨hnew, p, cell?_place_self hg.free p⟩
    · have hne : (g.place p).1 ≠ s := fun heq => hfresh (heq ▸ hs)
      rw [cell?_place_of_ne p hne]
      exact hg.filled s hs
  · have hne : (g.place p).1 ≠ s := by
      rintro rfl
      rw [hnew] at hc
      cases hc
    rw [cell?_place_of_ne p hne]
    exact hg.kept s c hc
  · rw [Multiset.mem_cons, not_or] at hne
    rw [cell?_place_of_ne p (Ne.symm hne.1)]
    exact hg.others s hs hne.2

end Heap.Grown

/-! ## Copies of parts -/

/-- A heap `g` that `h` has grown to before goes on to `k`, with copies of values. -/
def Copies (h g : Heap) (fresh shared : Multiset Slot) (vs ws : List Value) (k : Heap) : Prop :=
  ∃ f s, g.Extends k ∧ h.Grown k (f + fresh) (s + shared) ∧ Copied h k vs ws f s

namespace Copy

open ValueHeap.Action

variable {h g : Heap} {fresh shared : Multiset Slot} {copy : Value → Action Value}

/-- The copy of a value of a heap corresponds to it, whatever was copied before. -/
def Faithful (copy : Value → Action Value) : Prop :=
  ∀ {h g : Heap} {fresh shared : Multiset Slot} {v : Value}, h.Closed → h.Names v →
    h.Grown g fresh shared → (copy v g).Yields fun w => Copies h g fresh shared [v] [w]

theorem yields_items (hcopy : Faithful copy) (hclosed : h.Closed) {vs done : List Value}
    (hvs : ∀ v ∈ vs, h.Names v) (hg : h.Grown g fresh shared) :
    (items copy done vs g).Yields fun copied k =>
      ∃ ws, copied = done ++ ws ∧ Copies h g fresh shared vs ws k := by
  induction vs generalizing done g fresh shared with
  | nil =>
    exact yields_pure ⟨[], (List.append_nil done).symm, 0, 0, Heap.Extends.refl g,
      by rwa [zero_add, zero_add], .nil⟩
  | cons v rest ih =>
    refine yields_bind (yields_onError (hcopy hclosed (hvs v List.mem_cons_self) hg)) ?_
    rintro w k ⟨f, s, hgk, hk, hvw⟩
    refine yields_mono (ih (fun x hx => hvs x (List.mem_cons_of_mem v hx)) hk) ?_
    rintro _ l ⟨ws, rfl, f', s', hkl, hl, hws⟩
    refine ⟨w :: ws, List.append_assoc done [w] ws, f + f', s + s', hgk.trans hkl, ?_,
      (hvw.mono hkl).append hws⟩
    rwa [add_comm f, add_comm s, add_assoc, add_assoc]

/-- A value of the heap is shared. -/
theorem yields_share {v : Value} (hv : h.Names v) (hg : h.Grown g fresh shared) :
    (Action.retain v g).Yields fun w k =>
      w = v ∧ g.Extends k ∧ h.Grown k fresh (slotsOf {v} + shared) := by
  refine yields_retain (fun himmediate => ⟨rfl, Heap.Extends.refl g, ?_⟩) fun s c hs hc =>
    ⟨rfl, (Heap.extends_put hc (by rfl)).1, ?_⟩
  · have hnone : slotsOf {v} = 0 := by
      rw [slotsOf, ← Multiset.cons_zero, Multiset.filterMap_cons_none v 0 himmediate]
      rfl
    rwa [hnone, zero_add]
  · subst hs
    exact hg.retain (hv s rfl) hc

theorem yields_entries (hcopy : Faithful copy) (hclosed : h.Closed) {es done : List Entry}
    (hes : ∀ e ∈ es, h.Names e.key.value ∧ h.Names e.value) (hg : h.Grown g fresh shared) :
    (entries copy done es g).Yields fun copied k => ∃ new, copied = done ++ new ∧
      new.map Entry.key = es.map Entry.key ∧
      Copies h g fresh (slotsOf (elementsOf (es.map Entry.key)) + shared) (es.map Entry.value)
        (new.map Entry.value) k := by
  induction es generalizing done g fresh shared with
  | nil =>
    exact yields_pure ⟨[], (List.append_nil done).symm, rfl, 0, 0, Heap.Extends.refl g,
      by rw [zero_add, zero_add]; exact (zero_add shared).symm ▸ hg, .nil⟩
  | cons e rest ih =>
    obtain ⟨hkey, hvalue⟩ := hes e List.mem_cons_self
    refine yields_bind (yields_onError (hcopy hclosed hvalue hg)) ?_
    rintro w k ⟨f, s, hgk, hk, hvw⟩
    refine yields_bind (yields_share hkey hk) ?_
    rintro _ l ⟨rfl, hkl, hl⟩
    refine yields_mono (ih (fun x hx => hes x (List.mem_cons_of_mem e hx)) hl) ?_
    rintro _ m ⟨new, rfl, hkeys, f', s', hlm, hm, hws⟩
    refine ⟨⟨e.key, w⟩ :: new, List.append_assoc done _ new, ?_, f + f', s + s',
      (hgk.trans hkl).trans hlm, ?_, (hvw.mono (hkl.trans hlm)).append hws⟩
    · rw [List.map_cons, hkeys, List.map_cons]
    · have hfresh : f + f' + fresh = f' + (f + fresh) := by ac_rfl
      have hshared : s + s' + (slotsOf (elementsOf ((e :: rest).map Entry.key)) + shared) =
          s' + (slotsOf (elementsOf (rest.map Entry.key)) +
            (slotsOf {e.key.value} + (s + shared))) := by
        rw [List.map_cons, elementsOf_cons, slotsOf_add]
        ac_rfl
      rwa [hfresh, hshared]

theorem yields_elements {es : List HashedKey} (hes : ∀ e ∈ es, h.Names e.value)
    (hg : h.Grown g fresh shared) :
    (elements es g).Yields fun copied k => copied = es ∧ g.Extends k ∧
      h.Grown k fresh (slotsOf (elementsOf es) + shared) := by
  induction es generalizing g shared with
  | nil => exact yields_pure ⟨rfl, Heap.Extends.refl g, (zero_add shared).symm ▸ hg⟩
  | cons e rest ih =>
    refine yields_bind (yields_share (hes e List.mem_cons_self) hg) ?_
    rintro _ k ⟨rfl, hgk, hk⟩
    refine yields_bind (ih (fun x hx => hes x (List.mem_cons_of_mem e hx)) hk) ?_
    rintro _ l ⟨rfl, hkl, hl⟩
    refine yields_pure ⟨rfl, hgk.trans hkl, ?_⟩
    rwa [elementsOf_cons, slotsOf_add, add_assoc, add_left_comm]

/-! ## Containers -/

theorem yields_container {ty : BuiltinType} {length : Nat} {q : Payload}
    (hg : h.Grown g fresh shared) :
    (container ty length q g).Yields fun w k => ∃ t, w = .ref t ∧ h.find? t = none ∧
      k.find? t = some q ∧ g.Extends k ∧ h.Grown k (t ::ₘ fresh) shared := by
  refine yields_bind (yields_allocate (P := fun w k => ∃ t, w = .ref t ∧ h.find? t = none ∧
      k.find? t = some q ∧ g.Extends k ∧ h.Grown k (t ::ₘ fresh) shared) fun budget => ?_) ?_
  · have hg' := hg.beside budget g.depth
    obtain ⟨hgrown, hnew⟩ := hg'.place q
    exact ⟨_, rfl, hnew, Heap.find?_of_cell? (Heap.cell?_place_self hg'.free q),
      Heap.extends_place hg'.free q, hgrown⟩
  · intro w k hk
    refine yields_bind (yields_look (P := fun _ l => l = k) fun _ _ => rfl) ?_
    rintro depth l rfl
    refine yields_bind (yields_report (P := fun _ m => m = l) rfl) ?_
    rintro _ m rfl
    exact yields_pure hk

/-- New contents for old ones, made of copies of their parts and of their keys. -/
theorem yields_rebuilt {ty : BuiltinType} {length : Nat} {s : Slot} {p q : Payload} {k : Heap}
    (hp : h.find? s = some p) (hrebuilt : p.isRebuilt = true) (hkind : q.kindName = p.kindName)
    (hkeys : q.keys = p.keys)
    (hparts : Copies h g fresh (slotsOf (elementsOf p.keys) + shared) p.copiedParts
      q.copiedParts k) :
    (container ty length q k).Yields fun w => Copies h g fresh shared [.ref s] [w] := by
  obtain ⟨f, s', hgk, hk, hws⟩ := hparts
  refine yields_mono (yields_container hk) ?_
  rintro _ l ⟨t, rfl, hnew, hq, hkl, hl⟩
  have hlength := Payload.length?_eq hrebuilt hkind hkeys hws.length_eq
  have hcopied := Copied.rebuilt hp hnew hq hrebuilt hkind hlength hkeys (hws.mono hkl) .nil
  refine ⟨_, _, hgk.trans hkl, ?_, hcopied⟩
  have hshared : slotsOf (elementsOf p.keys) + s' + 0 + shared =
      s' + (slotsOf (elementsOf p.keys) + shared) := by
    rw [add_zero]
    ac_rfl
  rwa [hshared, add_zero, Multiset.cons_add]

/-- The copy of a container is made one level further down. -/
theorem yields_contents {inside : Option (Value → Action Value)}
    {x : (Value → Action Value) → Action Value} {v : Value}
    (hx : ∀ copy, inside = some copy → ∀ l, l = { g with depth := g.depth + 1 } →
      h.Grown l fresh shared →
      (x copy l).Yields fun w => Copies h l fresh shared [v] [w])
    (hg : h.Grown g fresh shared) :
    (ofValue.contents inside x g).Yields fun w => Copies h g fresh shared [v] [w] := by
  cases inside with
  | none =>
    intro w hw
    exact absurd (result_consult_eq_ok.1 hw) Answer.result_refuse_ne_ok
  | some copy =>
    refine yields_oneLevelDown (yields_mono (hx copy rfl _ rfl (hg.beside _ _)) ?_)
    rintro w k ⟨f, s, hgk, hk, hvw⟩
    have hleave : k.Extends k.leave := fun _ _ hp => hp
    exact ⟨f, s, hgk, hk.beside k.budget (k.depth - 1), hvw.mono hleave⟩

theorem faithful_ofValue {inside : Option (Value → Action Value)}
    (hinside : ∀ copy, inside = some copy → Faithful copy) : Faithful (ofValue inside) := by
  intro h g fresh shared v hclosed hv hg
  cases v with
  | ref s =>
    refine yields_bind (yields_look (P := fun p k => k = g ∧ h.find? s = some p) ?_) ?_
    · intro p hread
      obtain ⟨q, hq⟩ := Option.isSome_iff_exists.1 (hv s rfl)
      have hp := Heap.read_eq_ok_iff.1 hread
      rw [hg.keeps s q hq] at hp
      exact ⟨rfl, hq.trans hp⟩
    rintro p _ ⟨rfl, hp⟩
    have hnames {x : Value} (hx : x ∈ p.parts) := hclosed.names hp hx
    cases p with
    | list vs =>
      refine yields_contents (fun copy hc l _ hl => ?_) hg
      refine yields_bind (yields_items (hinside copy hc) hclosed (fun v hv => hnames hv) hl) ?_
      rintro _ k ⟨ws, rfl, hws⟩
      exact yields_rebuilt hp rfl rfl rfl ((zero_add shared).symm ▸ hws)
    | tuple vs =>
      refine yields_contents (fun copy hc l _ hl => ?_) hg
      refine yields_bind (yields_items (hinside copy hc) hclosed (fun v hv => hnames hv) hl) ?_
      rintro _ k ⟨ws, rfl, hws⟩
      exact yields_rebuilt hp rfl rfl rfl ((zero_add shared).symm ▸ hws)
    | dict es =>
      refine yields_contents (fun copy hc l _ hl => ?_) hg
      have hin := Compare.entriesIn_of_closed hclosed hp
      refine yields_bind (yields_entries (hinside copy hc) hclosed hin hl) ?_
      rintro _ k ⟨new, rfl, hkeys, hws⟩
      exact yields_rebuilt hp rfl rfl hkeys hws
    | set es =>
      refine yields_contents (fun copy hc l _ hl => ?_) hg
      have hin := Compare.elementsIn_of_closed hclosed hp
      refine yields_bind (yields_elements hin hl) ?_
      rintro _ k ⟨rfl, hlk, hk⟩
      exact yields_rebuilt hp rfl rfl rfl ⟨0, 0, hlk, by rwa [zero_add, zero_add], .nil⟩
    | userInstance cls =>
      exact yields_bind (yields_look (P := fun _ _ => True) fun _ _ => trivial)
        fun _ _ _ => yields_raise
    | _ =>
      refine yields_mono (yields_share hv hg) ?_
      rintro _ k ⟨rfl, hgk, hk⟩
      exact ⟨0, {s}, hgk, by rwa [zero_add], .leaf hp rfl .nil⟩
  | _ =>
    exact yields_pure ⟨0, 0, Heap.Extends.refl g, by rwa [zero_add, zero_add],
      .immediate rfl .nil⟩

theorem faithful_within (levels : Nat) : Faithful (within levels) := by
  induction levels with
  | zero => exact faithful_ofValue fun _ hc => by cases hc
  | succ levels ih =>
    refine faithful_ofValue fun copy hc => ?_
    cases hc
    exact ih

end Copy

theorem copies_deepCopy {h : Heap} {v w : Value} (hclosed : h.Closed) (hfree : h.FreeExact)
    (hv : h.Names v) (hw : (deepCopy v h).result = .ok w) :
    Copies h h 0 0 [v] [w] (deepCopy v h).heap :=
  Copy.faithful_within h.levelsLeft hclosed hv (Heap.Grown.refl hfree) w hw

/-! ## Copies in all that can come about -/

/-- **A deep copy corresponds to its original, position by position.**  Every slot that it fills
stands at one position and has one reference.  Whatever was in use before is still there as it was,
with as many references more as it is shared in the copy, and nothing else was filled. -/
theorem deepCopy_corresponds {budget : Budget} {c : Custody} (hc : Reachable budget c)
    {v w : Value} (hv : c.heap.Names v) (hw : (deepCopy v c.heap).result = .ok w) :
    ∃ fresh shared : Multiset Slot,
      Copied c.heap (deepCopy v c.heap).heap [v] [w] fresh shared ∧
      fresh.Nodup ∧
      (∀ s ∈ fresh, c.heap.cell? s = none ∧ (deepCopy v c.heap).heap.refcount s = 1 ∧
        (deepCopy v c.heap).heap.references s + (slotsOf {w}).count s = 1) ∧
      (∀ s cell, c.heap.cell? s = some cell → (deepCopy v c.heap).heap.cell? s =
        some { cell with refcount := cell.refcount + shared.count s }) ∧
      ∀ s cell, (deepCopy v c.heap).heap.cell? s = some cell → c.heap.cell? s = none →
        s ∈ fresh := by
  have hs := hc.sound
  obtain ⟨fresh, shared, -, hgrown, hcopied⟩ := copies_deepCopy hs.closed hs.free hv hw
  rw [add_zero, add_zero] at hgrown
  have hcarries := (lands_deepCopy hs hv).of_ok hw
  refine ⟨fresh, shared, hcopied, hgrown.nodup, fun s hmem => ?_, hgrown.kept,
    fun s cell hcell hnone => ?_⟩
  · obtain ⟨hnone, p, hp⟩ := hgrown.filled s hmem
    have hone : (deepCopy v c.heap).heap.refcount s = 1 := Heap.refcount_of_cell? hp
    -- nobody outside can have had a reference to a slot that was empty
    have howned : (slotsOf c.owned).count s = 0 := Multiset.count_eq_zero.2 fun hheld => by
      obtain ⟨cell, hcell⟩ := hs.cell?_of_held hheld
      rw [hnone] at hcell
      cases hcell
    have hcount := hcarries.sound.counts s
    rw [hone, Multiset.count_add, howned, add_zero] at hcount
    exact ⟨hnone, hone, hcount.symm⟩
  · refine by_contra fun hmem => ?_
    rw [hgrown.others s hnone hmem] at hcell
    cases hcell

/-- A list that stands twice in a tuple is copied twice, and the text that it holds is shared by
both copies. -/
theorem deepCopy_corresponds_twice :
    ∃ (c : Custody) (w : Value), Reachable .untracked c ∧
      c.heap.find? 1 = some (.list [.ref 0]) ∧ c.heap.find? 2 = some (.tuple [.ref 1, .ref 1]) ∧
      (deepCopy (.ref 2) c.heap).result = .ok w ∧
      ∃ fresh shared : Multiset Slot,
        Copied c.heap (deepCopy (.ref 2) c.heap).heap [.ref 2] [w] fresh shared ∧
        fresh.Nodup ∧
        (∀ s ∈ fresh, c.heap.cell? s = none ∧ (deepCopy (.ref 2) c.heap).heap.refcount s = 1 ∧
          (deepCopy (.ref 2) c.heap).heap.references s + (slotsOf {w}).count s = 1) ∧
        (∀ s cell, c.heap.cell? s = some cell → (deepCopy (.ref 2) c.heap).heap.cell? s =
          some { cell with refcount := cell.refcount + shared.count s }) ∧
        ∀ s cell, (deepCopy (.ref 2) c.heap).heap.cell? s = some cell → c.heap.cell? s = none →
          s ∈ fresh := by
  have hlist : Reachable .untracked _ :=
    .result [.ref 1] .start (Request.permitted_build (.list [.str "a"]) _) rfl
  have hclone := hlist.permitted (.clone (.ref 1)) (by decide) (by decide)
    (fun _ hp => by cases hp) trivial
  have htwo := hlist.result [.ref 1] hclone rfl
  have hallocate := htwo.permitted (.allocate (.tuple [.ref 1, .ref 1])) (by decide) (by decide)
    (fun _ hp => by cases hp; rfl) trivial
  have htuple := htwo.result [.ref 2] hallocate rfl
  have hnames := htuple.names (v := .ref 2) (by decide)
  exact ⟨_, .ref 5, htuple, rfl, rfl, rfl, deepCopy_corresponds htuple hnames rfl⟩

end ValueHeap
