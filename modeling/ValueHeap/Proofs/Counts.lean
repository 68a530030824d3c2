import ValueHeap.Proofs.Build
import ValueHeap.Proofs.Copy
import ValueHeap.Proofs.Faultless.Walks
import ValueHeap.Proofs.Requests

/-!
# Every count is exact

Each request takes a heap that is sound for what the caller owns to one that is sound for what the
caller owns then, whether it ends in a result or in an error.  So all that can come about is sound:
every slot in use has as many references as are made to it, and no request ever looks for something
in a slot that is empty.

## What is here

* `Request.lands_perform` — what becomes of the references of the caller, and
  `Request.perform_missed` what a request does whose item finds no place.
* `Reachable.sound` — the invariant of all that can come about.
* `reachable_refcount_exact` — the counts, and the faults that are left.
* `Careless` — what can come about when items are also given to lists that have no place for them,
  and `Careless.reachable` and `Careless.refcount_eq` what becomes of such items.
-/

set_option autoImplicit false

namespace ValueHeap

/-- The heap that is left is sound for what is received, beside the references held from outside.
After an error nothing is received. -/
def Outcome.LeavesSound (held : Multiset Slot) (o : Outcome (List Value)) : Prop :=
  o.Lands (fun (received : List Value) k => k.Sound (slotsOf received + held))
    fun k => k.Sound held

namespace Request

variable {h : Heap} {held : Multiset Slot}

theorem leavesSound_nil {k : Heap} {es : List Event} (hs : k.Sound held) :
    (⟨.ok [], k, es⟩ : Outcome (List Value)).LeavesSound held := by
  show k.Sound (0 + held)
  rwa [zero_add]

/-- How a request ends that hands over nothing, with what it receives on top of the heap. -/
theorem lands_received {x : Action Value}
    (hx : (x h).Lands (fun v k => h.Carries held {v} k) (h.Carries held 0)) :
    ((List.singleton <$> x) h).LeavesSound held := by
  refine Action.lands_map (Action.lands_mono hx (fun v k hk => hk.sound) fun k hk => ?_)
  exact zero_add held ▸ hk.sound

/-- How a request ends that only looks at the heap. -/
theorem lands_looked {α : Type} {f : Heap → Nat → Answer α} (hs : h.Sound held)
    (hf : (f h h.levelsLeft).Faultless) :
    (((fun _ => []) <$> Action.consult f) h).LeavesSound held :=
  Action.lands_map (Action.lands_consult hf (fun _ _ => (zero_add held).symm ▸ hs) hs)

theorem lands_released {v : Value} {bad : Heap → Prop} (hs : h.Sound (slotsOf {v} + held)) :
    (Action.release [v] h).Lands (fun _ k => k.Sound held) bad := by
  have hv : h.Sound (([v].filterMap Value.slot? : List Slot) + held) := hs
  obtain ⟨hok, hsound, -⟩ := hv.release
  exact Action.lands_change hok hsound

theorem lands_shared {v : Value} (hs : h.Sound held) (hv : h.Names v) :
    (Action.retain v h).Lands (fun v k => h.Carries held {v} k) (h.Carries held 0) := by
  refine Action.lands_mono (Action.lands_retain (Heap.Carries.refl hs) hv) ?_ fun _ hk => hk
  rintro _ k ⟨rfl, -, hk⟩
  exact hk

/-! ## Classes and instances -/

theorem lands_classSlot {v : Value} {bad : Heap → Prop} (hv : h.Names v) :
    (classSlot? v h).Lands
      (fun o k => k = h ∧
        ∀ s, o = some s → v = .ref s ∧ ∃ name base, h.find? s = some (.userClass name base))
      bad := by
  cases v with
  | ref s =>
    obtain ⟨p, hread, hp⟩ := Heap.exists_read hv
    refine Action.lands_look_bind hread (Action.lands_pure ⟨rfl, fun t ht => ?_⟩)
    cases p with
    | userClass name base =>
      cases ht
      exact ⟨rfl, name, base, hp⟩
    | _ => cases ht
  | _ => exact Action.lands_pure ⟨rfl, fun t ht => by cases ht⟩

/-- Contents that refer to a class take a reference to it. -/
theorem lands_dependent {s : Slot} {p : Payload} (hs : h.Sound held)
    (hclass : ∃ name base, h.find? s = some (.userClass name base)) (hp : p.children = [s])
    (hkeys : p.keys = []) (hclasses : p.classSlots = [s]) :
    ((do
        let _ ← Action.retain (.ref s)
        Action.allocate p : Action Value) h).Lands (fun v k => h.Carries held {v} k)
      (h.Carries held 0) := by
  obtain ⟨name, base, hfind⟩ := hclass
  have hs' : h.Names (.ref s) := by
    rintro t ht
    cases ht
    rw [hfind]
    rfl
  refine Action.lands_bind (Action.lands_retain (Heap.Carries.refl hs) hs') ?_
  rintro _ k ⟨rfl, hext, hk⟩
  refine Action.lands_allocate hs hk ?_ ⟨hkeys ▸ .nil k, fun t ht => ?_⟩
  · rw [hp, add_zero, slotsOf_ref, Multiset.coe_singleton]
  · rw [hclasses, List.mem_singleton] at ht
    subst ht
    exact ⟨name, base, hext _ _ hfind⟩

theorem lands_newClass {name : String} {base : Option Value} (hs : h.Sound held)
    (hbase : ∀ v ∈ base.toList, h.Names v) :
    (ValueHeap.newClass name base h).Lands (fun v k => h.Carries held {v} k)
      (h.Carries held 0) := by
  cases base with
  | none => exact Object.lands_plain rfl rfl rfl hs
  | some b =>
    have hb := hbase b (by simp)
    refine Action.lands_bind (lands_classSlot hb) ?_
    rintro (_ | s) k ⟨rfl, hclass⟩
    · obtain ⟨ty, hty⟩ := Heap.exists_typeName hs.coherent hb
      exact Action.lands_look_bind hty (Action.lands_raise (Heap.Carries.refl hs))
    · obtain ⟨rfl, hfind⟩ := hclass s rfl
      exact lands_dependent hs hfind rfl rfl rfl

theorem lands_newInstance {cls : Value} (hs : h.Sound held) (hcls : h.Names cls) :
    (ValueHeap.newInstance cls h).Lands (fun v k => h.Carries held {v} k)
      (h.Carries held 0) := by
  refine Action.lands_bind (lands_classSlot hcls) ?_
  rintro (_ | s) k ⟨rfl, hclass⟩
  · obtain ⟨ty, hty⟩ := Heap.exists_typeName hs.coherent hcls
    exact Action.lands_look_bind hty (Action.lands_raise (Heap.Carries.refl hs))
  · obtain ⟨rfl, hfind⟩ := hclass s rfl
    exact lands_dependent hs hfind rfl rfl rfl

theorem lands_typeValue {ty : TypeRef} (hs : h.Sound held)
    (hty : ∀ s, ty = .userClass s → h.Names (.ref s)) :
    (ValueHeap.typeValue ty h).Lands (fun v k => h.Carries held {v} k) (h.Carries held 0) := by
  cases ty with
  | builtin ty => exact Object.lands_immediate rfl hs
  | userClass s => exact lands_shared hs (hty s rfl)

/-! ## Contents and items handed over -/

theorem fits_open {p : Payload} (hp : p.isOpen = true) : h.Fits p := by
  refine .plain ?_ ?_
  · cases p <;> simp_all [Payload.isOpen, Payload.keys]
  · cases p <;> simp_all [Payload.isOpen, Payload.classSlots]

theorem lands_allocate {p : Payload} (hs : h.Sound (slotsOf p.parts + held))
    (hp : p.isOpen = true) :
    (Action.allocate p h).Lands (fun v k => k.Sound (slotsOf {v} + held))
      fun k => k.Sound held := by
  rw [Payload.slotsOf_parts hp] at hs
  -- a heap without slots leaves nothing to keep
  have hstart := Heap.sound_empty h.budget
  refine Action.lands_mono (Action.lands_place hstart (Multiset.zero_le held) hs ?_ (fits_open hp))
    (fun v k hk => hk.1) fun k hk => hk.1
  intro s q hq
  cases hq

section Lists

variable {α : Type} {s : Slot} {item : Value} {f : Heap → Except Fault α × Heap}
  {got : α → List Value} {a : α}

/-- An edit of a list that exchanges the item handed over for what is received. -/
theorem lands_edited {n : Nat} {items items' : List Value}
    (hs : h.Sound (slotsOf {item} + held)) (hc : h.cell? s = some ⟨n, .list items⟩)
    (hf : f h = (.ok a, h.put s ⟨n, .list items'⟩))
    (hitems : (items' : Multiset Value) + got a = items + {item}) :
    ((got <$> Action.change f) h).LeavesSound held := by
  refine Action.lands_map (Action.lands_change (congrArg Prod.fst hf) ?_)
  rw [hf]
  refine hs.putList hc ?_
  have hslots := congrArg slotsOf hitems
  rw [slotsOf_add, slotsOf_add, slotsOf_coe items', slotsOf_coe items] at hslots
  rw [← add_assoc, ← add_assoc, hslots]

theorem lands_push (hs : h.Sound (slotsOf {item} + held)) (hplace : (push s item).FindsPlace h) :
    ((push s item).perform h).LeavesSound held := by
  obtain ⟨items, hlist⟩ := hplace
  obtain ⟨⟨n, _⟩, hc, rfl⟩ := Heap.exists_cell?_of_find? hlist
  have hitems : ((items ++ [item] : List Value) : Multiset Value) + ([] : List Value) =
      items + {item} := add_zero _
  refine lands_edited (a := some (items.length + 1)) hs hc ?_ hitems
  rw [Heap.pushItem, Heap.access_eq_ok_iff.2 hc]

theorem lands_replace {i : Nat} (hs : h.Sound (slotsOf {item} + held))
    (hplace : (replace s i item).FindsPlace h) :
    ((replace s i item).perform h).LeavesSound held := by
  obtain ⟨items, hlist, hi⟩ := hplace
  obtain ⟨⟨n, _⟩, hc, rfl⟩ := Heap.exists_cell?_of_find? hlist
  have hold : items[i]? = some items[i] := List.getElem?_eq_getElem hi
  refine lands_edited (a := some items[i]) hs hc ?_ (coe_set_add item hold)
  rw [Heap.replaceItem, Heap.access_eq_ok_iff.2 hc]
  simp only [hold]

end Lists

/-! ## All requests -/

/-- **A request keeps the heap sound for what the caller owns**, with what it receives in the place
of what it handed over. -/
theorem lands_perform {r : Request} (hs : h.Sound (slotsOf r.takes + held))
    (hlooks : ∀ v ∈ r.looksAt, h.Names v) (hopen : ∀ p, r = .allocate p → p.isOpen = true)
    (hplace : r.FindsPlace h) : (r.perform h).LeavesSound held := by
  -- for the requests that hand over nothing
  have hs' (htakes : r.takes = []) : h.Sound held := by
    rw [htakes] at hs
    exact zero_add held ▸ hs
  have hpair (a b : Value) (hlook : r.looksAt = [a, b]) : h.Names a ∧ h.Names b :=
    ⟨hlooks a (by simp [hlook]), hlooks b (by simp [hlook])⟩
  cases r with
  | build o => exact lands_received (Object.lands_build o h held (hs' rfl))
  | take v =>
    have hv : h.Names v := by
      rintro s rfl
      exact hs.find?_of_held (Multiset.mem_add.2 (Or.inl (mem_slotsOf.2 (by simp [takes]))))
    obtain ⟨o, ho⟩ := Heap.exists_snapshot hs.coherent hv
    refine Action.lands_map (Action.lands_look_bind ho ?_)
    refine Action.lands_bind (lands_released hs) ?_
    intro _ k hk
    exact Action.lands_pure ((zero_add held).symm ▸ hk)
  | clone v => exact lands_received (lands_shared (hs' rfl) (hlooks v List.mem_cons_self))
  | drop v =>
    refine Action.lands_map (Action.lands_mono (lands_released hs) (fun _ k hk => ?_) fun _ => id)
    exact (zero_add held).symm ▸ hk
  | typeValue ty =>
    refine lands_received (lands_typeValue (hs' rfl) ?_)
    rintro s rfl
    exact hlooks _ List.mem_cons_self
  | newClass name base => exact lands_received (lands_newClass (hs' rfl) hlooks)
  | newInstance cls =>
    exact lands_received (lands_newInstance (hs' rfl) (hlooks cls List.mem_cons_self))
  | allocate p => exact Action.lands_map (lands_allocate hs (hopen p rfl))
  | push s item => exact lands_push hs hplace
  | replace s i item => exact lands_replace hs hplace
  | copy v => exact lands_received (lands_deepCopy (hs' rfl) (hlooks v List.mem_cons_self))
  | fingerprint v =>
    have hc := (hs' rfl).coherent
    exact lands_looked (hs' rfl) (Fingerprint.within_faultless hc _ (hlooks v List.mem_cons_self))
  | compare mode a b op =>
    have hc := (hs' rfl).coherent
    have ⟨ha, hb⟩ := hpair a b rfl
    exact lands_looked (hs' rfl) (Compare.within_faultless hc mode _ a b op ha hb)
  | compareHere mode a b op =>
    have hc := (hs' rfl).coherent
    have ⟨ha, hb⟩ := hpair a b rfl
    exact lands_looked (hs' rfl)
      (Compare.dispatch_faultless hc (Compare.within_faultless hc mode _) mode _ op ha hb)
  | compareByFallback mode a b op =>
    have ⟨ha, hb⟩ := hpair a b rfl
    exact lands_looked (hs' rfl)
      (Compare.fallback_faultless (hs' rfl).coherent mode _ op ha hb)
  | enter =>
    simp only [perform, Heap.enter]
    by_cases hlevel : 0 < h.levelsLeft
    · simp only [if_pos hlevel]
      exact leavesSound_nil ((hs' rfl).beside h.budget (h.depth + 1))
    · simp only [if_neg hlevel]
      exact hs' rfl
  | leave => exact leavesSound_nil ((hs' rfl).beside h.budget (h.depth - 1))

/-- Nothing happens when an item finds no place. -/
theorem perform_missed {r : Request} (hlooks : ∀ v ∈ r.looksAt, h.Names v)
    (hmiss : ¬r.FindsPlace h) : r.perform h = ⟨.ok [], h, []⟩ := by
  have hsame {α : Type} {f : Heap → Except Fault α × Heap} {got : α → List Value} {a : α}
      (hf : f h = (.ok a, h)) (hgot : got a = []) :
      (got <$> Action.change f) h = ⟨.ok [], h, []⟩ := by
    have hchange : Action.change f h = ⟨.ok a, h, []⟩ := by rw [Action.change, hf]
    rw [map_eq_pure_bind, Action.bind_apply_ok (congrArg Outcome.result hchange), hchange, ← hgot]
    rfl
  cases r with
  | push s item =>
    obtain ⟨p, hp⟩ := Option.isSome_iff_exists.1 (hlooks _ List.mem_cons_self s rfl)
    obtain ⟨⟨n, _⟩, hc, rfl⟩ := Heap.exists_cell?_of_find? hp
    refine hsame (a := none) ?_ rfl
    rw [Heap.pushItem, Heap.access_eq_ok_iff.2 hc]
    split
    · next hlist =>
      cases hlist
      exact absurd ⟨_, hp⟩ hmiss
    · rfl
    · next hfault => cases hfault
  | replace s i item =>
    obtain ⟨p, hp⟩ := Option.isSome_iff_exists.1 (hlooks _ List.mem_cons_self s rfl)
    obtain ⟨⟨n, _⟩, hc, rfl⟩ := Heap.exists_cell?_of_find? hp
    refine hsame (a := none) ?_ rfl
    rw [Heap.replaceItem, Heap.access_eq_ok_iff.2 hc]
    split
    · next hlist =>
      cases hlist
      split
      · next old hold =>
        exact absurd ⟨_, hp, (List.getElem?_eq_some_iff.1 hold).1⟩ hmiss
      · rfl
    · rfl
    · next hfault => cases hfault
  | _ => exact absurd trivial hmiss

end Request

/-! ## All that can come about -/

theorem Request.Permitted.lands {r : Request} {c : Custody} (hr : r.Permitted c)
    (hs : c.heap.Sound (slotsOf c.owned)) :
    (r.perform c.heap).LeavesSound (slotsOf (c.owned - r.takes)) := by
  refine Request.lands_perform ?_ hr.looksAt hr.contents hr.place
  rwa [← slotsOf_add, add_tsub_cancel_of_le hr.takes]

/-- **Whatever can come about is sound** for what the caller owns. -/
theorem Reachable.sound {budget : Budget} {c : Custody} (hc : Reachable budget c) :
    c.heap.Sound (slotsOf c.owned) := by
  induction hc with
  | start => exact Heap.sound_empty budget
  | @result c r received _ hr hok ih =>
    have hlands := (hr.lands ih).of_ok hok
    rwa [← slotsOf_add, add_comm] at hlands
  | @error c r e _ hr herr ih =>
    have hlands := (hr.lands ih).of_error herr
    rwa [← add_zero (c.owned - r.takes)] at hlands

/-- Whatever the caller owns is in use. -/
theorem Reachable.names {budget : Budget} {c : Custody} (hc : Reachable budget c) {v : Value}
    (hv : v ∈ c.owned) : c.heap.Names v := by
  rintro s rfl
  exact hc.sound.find?_of_held (mem_slotsOf.2 hv)

/-- A caller may look at what it owns. -/
theorem Reachable.permitted {budget : Budget} {c : Custody} (hc : Reachable budget c) (r : Request)
    (htakes : (r.takes : Multiset Value) ≤ c.owned) (hlooks : ∀ v ∈ r.looksAt, v ∈ c.owned)
    (hopen : ∀ p, r = .allocate p → p.isOpen = true) (hplace : r.FindsPlace c.heap) :
    r.Permitted c :=
  ⟨⟨htakes, fun v hv => hc.names (hlooks v hv), hopen⟩, hplace⟩

/-- What a caller comes to who only looks at what it owns. -/
theorem Reachable.ask {budget : Budget} {c d : Custody} (hc : Reachable budget c) (r : Request)
    (received : List Value) (htakes : (r.takes : Multiset Value) ≤ c.owned)
    (hlooks : ∀ v ∈ r.looksAt, v ∈ c.owned) (hopen : ∀ p, r = .allocate p → p.isOpen = true)
    (hplace : r.FindsPlace c.heap) (hok : (r.perform c.heap).result = .ok received)
    (hheap : (r.perform c.heap).heap = d.heap)
    (howned : c.owned - r.takes + received = d.owned) : Reachable budget d := by
  have hr := hc.permitted r htakes hlooks hopen hplace
  have hd : c.after r received = d := by
    rw [Custody.after, hheap, howned]
  exact hd ▸ hc.result received hr hok

/-- A slot occurs among those of values as often as a reference to it among the values. -/
theorem count_slotsOf (vs : Multiset Value) (s : Slot) :
    (slotsOf vs).count s = vs.count (.ref s) := by
  induction vs using Multiset.induction with
  | empty => rfl
  | cons v vs ih =>
    rw [← Multiset.singleton_add, slotsOf_add, Multiset.count_add, Multiset.count_add, ih]
    congr 1
    cases v with
    | ref t =>
      rw [slotsOf_ref, Multiset.count_singleton, Multiset.count_singleton]
      simp only [Value.ref.injEq]
    | _ => rfl

/-- What can come about when a caller does not look whether an item finds its place, and the items
that it has lost in this way. -/
inductive Careless (budget : Budget) : Custody → Multiset Value → Prop where
  | start : Careless budget ⟨Heap.empty budget, 0⟩ 0
  | result {c : Custody} {lost : Multiset Value} {r : Request} (received : List Value)
      (hc : Careless budget c lost) (hr : r.Permitted c)
      (hok : (r.perform c.heap).result = .ok received) : Careless budget (c.after r received) lost
  | error {c : Custody} {lost : Multiset Value} {r : Request} {e : RunError}
      (hc : Careless budget c lost) (hr : r.Permitted c)
      (herr : (r.perform c.heap).result = .error (.error e)) : Careless budget (c.after r []) lost
  | missed {c : Custody} {lost : Multiset Value} {r : Request} (hc : Careless budget c lost)
      (hr : r.Backed c) (hmiss : ¬r.FindsPlace c.heap) :
      Careless budget (c.after r []) (lost + r.takes)

/-- Whoever owns more may ask for the same. -/
theorem Request.Permitted.beside {r : Request} {c : Custody} (hr : r.Permitted c)
    (more : Multiset Value) : r.Permitted ⟨c.heap, c.owned + more⟩ where
  takes := hr.takes.trans (Multiset.le_add_right _ _)
  looksAt := hr.looksAt
  contents := hr.contents
  place := hr.place

/-- **What is lost is as good as owned**, except that nobody can give it up any more: the heap is one
that can come about with a caller who still has all of it. -/
theorem Careless.reachable {budget : Budget} {c : Custody} {lost : Multiset Value}
    (hc : Careless budget c lost) : Reachable budget ⟨c.heap, c.owned + lost⟩ := by
  have hafter {c : Custody} {r : Request} (received : List Value) (lost : Multiset Value)
      (hr : r.Permitted c) : Custody.after ⟨c.heap, c.owned + lost⟩ r received =
        ⟨(c.after r received).heap, (c.after r received).owned + lost⟩ := by
    simp only [Custody.after, Custody.mk.injEq, true_and]
    rw [← tsub_add_eq_add_tsub hr.takes, add_right_comm]
  induction hc with
  | start => exact .start
  | @result c lost r received _ hr hok ih =>
    exact hafter received lost hr ▸ ih.result received (hr.beside lost) hok
  | @error c lost r e _ hr herr ih =>
    exact hafter [] lost hr ▸ ih.error (hr.beside lost) herr
  | @missed c lost r _ hr hmiss ih =>
    have howned : c.owned - r.takes + (lost + r.takes) = c.owned + lost := by
      rw [add_comm lost, ← add_assoc, tsub_add_cancel_of_le hr.takes]
    simp only [Custody.after, Request.perform_missed hr.looksAt hmiss, Multiset.coe_nil, add_zero,
      howned]
    exact ih

/-- The count of a slot covers what has been lost. -/
theorem Careless.refcount_eq {budget : Budget} {c : Custody} {lost : Multiset Value}
    (hc : Careless budget c lost) (s : Slot) :
    c.heap.refcount s =
      c.heap.references s + c.owned.count (.ref s) + lost.count (.ref s) := by
  rw [hc.reachable.sound.counts, count_slotsOf, Multiset.count_add, add_assoc]

end ValueHeap
