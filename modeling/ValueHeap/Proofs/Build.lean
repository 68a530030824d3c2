import ValueHeap.Object.Build
import ValueHeap.Proofs.Action
import ValueHeap.Proofs.Faultless.Compare

/-!
# Building keeps every count

A value is built on top of what a heap holds, and the heap keeps all of it.  In the end there is one
more value, or an error and nothing more than before.  On the way the parts that are done are
carried, and the keys among them fit.

## What is here

* `Build.lands_insert` and `Build.lands_add` — one entry or element more, which may be there
  already.
* `Object.lands_build` — the value for an object.
-/

set_option autoImplicit false

namespace ValueHeap

namespace Build

variable {start h : Heap} {held : Multiset Slot} {bad : Heap → Prop}

/-! ## Keys -/

theorem lands_hashOf {v : Value} (hc : h.Coherent) (hv : h.Names v) :
    (hashOf v h).Lands (fun word k => k = h ∧ h.Hashes v word) (fun k => k = h) := by
  obtain ⟨r, hr⟩ := Heap.exists_keyHash hc hv
  refine Action.lands_look_bind hr ?_
  cases r with
  | some word => exact Action.lands_pure ⟨rfl, .of_keyHash hr⟩
  | none =>
    obtain ⟨name, hname⟩ := Heap.exists_typeName hc hv
    exact Action.lands_look_bind hname (Action.lands_raise rfl)

theorem lands_find (wanted : HashedKey) (stored : List HashedKey) (hc : h.Coherent)
    (hw : h.Names wanted.value) (hs : ∀ k ∈ stored, h.Names k.value) :
    (find wanted stored h).Lands
      (fun place k => k = h ∧ (Compare.position (Compare.within h .total h.levelsLeft) wanted
        stored).result = .ok place)
      fun k => k = h := by
  have hfault := Compare.position_faultless
    (Compare.within_faultless hc .total h.levelsLeft) hw hs
  exact Action.lands_silently (Action.lands_consult hfault (fun _ hr => ⟨rfl, hr⟩) rfl)

/-- A key that was not found among others goes with them. -/
theorem keysFit_concat {key : HashedKey} {stored : List HashedKey} {levels : Nat}
    (hc : h.Coherent) (hs : h.KeysFit stored) (hk : h.Hashes key.value key.hash)
    (hr : (Compare.position (Compare.within h .total levels) key stored).result = .ok none) :
    h.KeysFit (stored ++ [key]) where
  hashes := List.forall_mem_append.2 ⟨hs.hashes, List.forall_mem_singleton.2 hk⟩
  apart := by
    have hapart := Compare.position_none (Compare.within_eqSound hc.keyed .total levels) hk
      hs.hashes hr
    refine List.pairwise_append.2 ⟨hs.apart, List.pairwise_singleton _ _, fun k hmem l hl => ?_⟩
    rw [List.mem_singleton.1 hl]
    exact hapart k hmem

/-! ## One entry or element more -/

theorem map_key_set {entries : List Entry} {i : Nat} {e : Entry} (value : Value)
    (hi : entries[i]? = some e) :
    (entries.set i { e with value }).map Entry.key = entries.map Entry.key := by
  obtain ⟨hlt, rfl⟩ := List.getElem?_eq_some_iff.1 hi
  rw [List.map_set, ← List.getElem_map Entry.key (h := by simpa using hlt), List.set_getElem_self]

/-- An entry is taken in behind the others, or its value replaces the one that was there. -/
theorem lands_insert {done : List Entry} {key : HashedKey} {value : Value}
    (hstart : start.Sound held) (hh : start.Carries held ({key.value} + {value} + partsOf done) h)
    (hfit : h.KeysFit (done.map Entry.key)) (hk : h.Hashes key.value key.hash) :
    (insert done key value h).Lands
      (fun stored k => start.Carries held (partsOf stored) k ∧ k.KeysFit (stored.map Entry.key))
      (start.Carries held (partsOf done)) := by
  have hc := hh.sound.coherent
  have hfind := lands_find key (done.map Entry.key) hc
    (hh.names (by simp)) fun l hl => hh.names (Multiset.mem_add.2 (Or.inr (mem_partsOf_of_key hl)))
  refine Action.lands_bind (Action.lands_onError hfind ?_) ?_
  · rintro k rfl
    exact Action.lands_cleanup hstart hh rfl
  rintro place _ ⟨rfl, hplace⟩
  cases place with
  | none =>
    refine Action.lands_pure ⟨?_, ?_⟩
    · rwa [partsOf_append, partsOf_singleton, add_comm]
    · rw [List.map_append]
      exact keysFit_concat hc hfit hk hplace
  | some i =>
    obtain ⟨l, hl, -⟩ := Compare.position_some (Compare.within_eqSound hc.keyed _ _) hplace
    rw [List.getElem?_map, Option.map_eq_some_iff] at hl
    obtain ⟨e, he, rfl⟩ := hl
    have hparts : (([e.value] : List Value) : Multiset Value) +
        (([key.value] : List Value) + partsOf (done.set i { e with value })) =
          {key.value} + {value} + partsOf done := by
      rw [Multiset.coe_singleton, Multiset.coe_singleton, add_left_comm, partsOf_set value he,
        ← add_assoc]
    have hkeys := map_key_set value he
    simp only [Option.bind_some, he, Option.map_some]
    refine Action.lands_bind (Action.lands_release [e.value] hstart (hparts ▸ hh)) ?_
    rintro _ k ⟨hkh, hk⟩
    refine Action.lands_bind (Action.lands_release [key.value] hstart hk) ?_
    rintro _ l ⟨hlk, hl⟩
    refine Action.lands_pure ⟨hl, ?_⟩
    refine hh.keysFit (hkeys ▸ hfit) hl (hlk.trans hkh).agree_symm fun key hmem => ?_
    exact mem_partsOf_of_key hmem

/-- An element is taken in behind the others, unless it is there already. -/
theorem lands_add {done : List HashedKey} {value : Value} (hstart : start.Sound held)
    (hh : start.Carries held ({value} + elementsOf done) h) (hfit : h.KeysFit done) :
    (add done value h).Lands
      (fun stored k => start.Carries held (elementsOf stored) k ∧ k.KeysFit stored)
      (start.Carries held (elementsOf done)) := by
  have hc := hh.sound.coherent
  have hvalue : h.Names value := hh.names (by simp)
  refine Action.lands_bind (Action.lands_onError (lands_hashOf hc hvalue) ?_) ?_
  · rintro k rfl
    exact Action.lands_cleanup hstart hh rfl
  rintro hash _ ⟨rfl, hhash⟩
  have hfind := lands_find ⟨value, hash⟩ done hc hvalue fun l hl =>
    hh.names (Multiset.mem_add.2 (Or.inr (mem_elementsOf hl)))
  refine Action.lands_bind (Action.lands_onError hfind ?_) ?_
  · rintro k rfl
    exact Action.lands_cleanup hstart hh rfl
  rintro place _ ⟨rfl, hplace⟩
  refine Action.lands_ite (fun _ => ?_) fun hnone => ?_
  · refine Action.lands_bind (Action.lands_release [value] hstart hh) ?_
    rintro _ k ⟨hkh, hk⟩
    exact Action.lands_pure ⟨hk, hh.keysFit hfit hk hkh.agree_symm fun key => mem_elementsOf⟩
  · rw [Option.not_isSome_iff_eq_none.1 hnone] at hplace
    refine Action.lands_pure ⟨?_, keysFit_concat hc hfit hhash hplace⟩
    rw [elementsOf, List.map_append, ← Multiset.coe_add, add_comm]
    exact hh

end Build

/-! ## Values for objects -/

namespace Object

open Build

variable {start h : Heap} {held : Multiset Slot} {mine : Multiset Value}

/-- Whatever a heap holds, the value for the object comes on top of it. -/
def Lands (o : Object) : Prop :=
  ∀ (h : Heap) (held : Multiset Slot), h.Sound held →
    (o.build h).Lands (fun v k => h.Carries held {v} k) (h.Carries held 0)

/-- The value also comes on top of what is carried already. -/
theorem Lands.carries {o : Object} (ho : o.Lands) (hh : start.Carries held mine h) :
    (o.build h).Lands (fun v k => h.Extends k ∧ start.Carries held ({v} + mine) k)
      (start.Carries held mine) := by
  refine Action.lands_mono (ho h _ hh.sound) (fun v k hk => ⟨hk.kept, hh.trans hk⟩) fun k hk => ?_
  rw [← zero_add mine]
  exact hh.trans hk

theorem lands_integer (n : Int) (hs : h.Sound held) :
    (integer n h).Lands (fun v k => h.Carries held {v} k) (h.Carries held 0) := by
  refine Action.lands_ite (fun _ => ?_) fun _ => ?_
  · exact Action.lands_pure ((Heap.Carries.refl hs).of_slots rfl)
  · exact Action.lands_allocate hs (Heap.Carries.refl hs) rfl (.plain rfl rfl)

/-- One entry more for a dict, built from a pair of objects. -/
theorem lands_entry {key value : Object} {done : List Entry} (hkey : key.Lands)
    (hvalue : value.Lands) (hstart : start.Sound held) (hh : start.Carries held (partsOf done) h)
    (hfit : h.KeysFit (done.map Entry.key)) :
    ((do
        let key ← build key
        let hash ← Action.onError (hashOf key) (Action.release [key])
        let value ← Action.onError (build value) (Action.release [key])
        insert done ⟨key, hash⟩ value : Action (List Entry)) h).Lands
      (fun stored k => start.Carries held (partsOf stored) k ∧ k.KeysFit (stored.map Entry.key))
      (start.Carries held (partsOf done)) := by
  refine Action.lands_bind (hkey.carries hh) ?_
  rintro key k ⟨hhk, hk⟩
  have hname : k.Names key := hk.names (by simp)
  refine Action.lands_bind
    (Action.lands_onError (lands_hashOf hk.sound.coherent hname) ?_) ?_
  · rintro _ rfl
    exact Action.lands_cleanup hstart hk rfl
  rintro hash _ ⟨rfl, hhash⟩
  refine Action.lands_bind (Action.lands_onError (hvalue.carries hk) ?_) ?_
  · intro l hl
    exact Action.lands_cleanup hstart hl rfl
  rintro value l ⟨hkl, hl⟩
  refine lands_insert hstart (hl.of_slots (congrArg slotsOf ?_)) ?_ ?_
  · rw [add_assoc, add_left_comm]
  · refine hh.keysFit hfit hl (hhk.trans hkl).agree fun key hmem => ?_
    exact Multiset.mem_add.2 (Or.inr (Multiset.mem_add.2 (Or.inr (mem_partsOf_of_key hmem))))
  · exact hhash.of_agree hkl.agree hk.sound.closed hl.sound.closed (hkl.names hname)

/-- One element more for a set, built from an object. -/
theorem lands_element {o : Object} {done : List HashedKey} (ho : o.Lands)
    (hstart : start.Sound held) (hh : start.Carries held (elementsOf done) h)
    (hfit : h.KeysFit done) :
    ((do
        let value ← build o
        add done value : Action (List HashedKey)) h).Lands
      (fun stored k => start.Carries held (elementsOf stored) k ∧ k.KeysFit stored)
      (start.Carries held (elementsOf done)) := by
  refine Action.lands_bind (ho.carries hh) ?_
  rintro value k ⟨hhk, hk⟩
  refine lands_add hstart hk (hh.keysFit hfit hk hhk.agree fun key hmem => ?_)
  exact Multiset.mem_add.2 (Or.inr (mem_elementsOf hmem))

/-- Values without a slot come on top of any heap. -/
theorem lands_immediate {v : Value} (hv : v.slot? = Option.none) (hs : h.Sound held) :
    ((pure v : Action Value) h).Lands (fun v k => h.Carries held {v} k) (h.Carries held 0) := by
  refine Action.lands_pure ((Heap.Carries.refl hs).of_slots ?_)
  rw [slotsOf, ← Multiset.cons_zero, Multiset.filterMap_cons_none v 0 hv]
  rfl

/-- Contents without parts come on top of any heap. -/
theorem lands_plain {p : Payload} (hp : p.children = []) (hkeys : p.keys = [])
    (hclasses : p.classSlots = []) (hs : h.Sound held) :
    (Action.allocate p h).Lands (fun v k => h.Carries held {v} k) (h.Carries held 0) :=
  Action.lands_allocate hs (Heap.Carries.refl hs) (by rw [hp]; rfl) (.plain hkeys hclasses)

mutual

/-- **A value is built on top of what the heap holds.**  When it cannot be built, nothing more is in
use than before. -/
theorem lands_build : ∀ o : Object, o.Lands
  | none, _, _, hs => lands_immediate rfl hs
  | ellipsis, _, _, hs => lands_immediate rfl hs
  | bool _, _, _, hs => lands_immediate rfl hs
  | int _, _, _, hs => lands_immediate rfl hs
  | bigInt n, _, _, hs => lands_integer n hs
  | float _, _, _, hs => lands_immediate rfl hs
  | complex _ _, _, _, hs => lands_plain rfl rfl rfl hs
  | str _, _, _, hs => lands_plain rfl rfl rfl hs
  | bytes _, _, _, hs => lands_plain rfl rfl rfl hs
  | list items, h, held, hs => by
    refine Action.lands_bind (lands_buildItems items hs (Heap.Carries.refl hs)) ?_
    intro values k hk
    exact Action.lands_allocate hs hk rfl (.plain rfl rfl)
  | tuple items, h, held, hs => by
    refine Action.lands_bind (lands_buildItems items hs (Heap.Carries.refl hs)) ?_
    intro values k hk
    exact Action.lands_allocate hs hk rfl (.plain rfl rfl)
  | dict entries, h, held, hs => by
    refine Action.lands_bind (lands_buildEntries entries hs (Heap.Carries.refl hs) (.nil h)) ?_
    rintro stored k ⟨hk, hfit⟩
    exact Action.lands_allocate hs hk rfl (Heap.fits_dict hfit)
  | set elements, h, held, hs => by
    refine Action.lands_bind (lands_buildElements elements hs (Heap.Carries.refl hs) (.nil h)) ?_
    rintro stored k ⟨hk, hfit⟩
    exact Action.lands_allocate hs hk rfl (Heap.fits_set hfit)
  | range start stop step, h, held, hs => by
    rw [build]
    cases Progression.make? start stop step with
    | some p => exact lands_plain rfl rfl rfl hs
    | none => exact Action.lands_raise (Heap.Carries.refl hs)
  | slice start stop step, h, held, hs => by
    refine Action.lands_bind (lands_build start h held hs) ?_
    intro first k hk
    refine Action.lands_bind (Action.lands_onError ((lands_build stop).carries hk) ?_) ?_
    · intro l hl
      exact Action.lands_cleanup hs hl rfl
    rintro second l ⟨-, hl⟩
    refine Action.lands_bind (Action.lands_onError ((lands_build step).carries hl) ?_) ?_
    · intro m hm
      exact Action.lands_cleanup hs hm (add_comm _ _)
    rintro third m ⟨-, hm⟩
    have hparts : ({third} + ({second} + {first}) : Multiset Value) =
        ([first, second, third] : List Value) := by
      calc ({third} + ({second} + {first}) : Multiset Value)
        _ = {first} + ({second} + {third}) := by ac_rfl
        _ = ([first, second, third] : List Value) := rfl
    exact Action.lands_allocate hs hm (congrArg slotsOf hparts) (.plain rfl rfl)
  | type _, _, _, hs => lands_immediate rfl hs
  | standIn _, _, _, hs => Action.lands_raise (Heap.Carries.refl hs)

/-- Values for objects are carried together with those that are done. -/
theorem lands_buildItems : ∀ (objects : List Object) {start h : Heap} {held : Multiset Slot}
    {done : List Value}, start.Sound held → start.Carries held done h →
      (buildItems done objects h).Lands (fun (values : List Value) k => start.Carries held values k)
        (start.Carries held 0)
  | [], _, _, _, _, _, hh => Action.lands_pure hh
  | o :: rest, start, h, held, done, hstart, hh => by
    refine Action.lands_bind (Action.lands_onError ((lands_build o).carries hh) ?_) ?_
    · intro k hk
      exact Action.lands_cleanup hstart hk (add_zero _).symm
    rintro value k ⟨-, hk⟩
    refine lands_buildItems rest hstart ?_
    rwa [← Multiset.coe_add, Multiset.coe_singleton, add_comm]

/-- Entries for pairs of objects are carried together with those that are done, and all keys
fit. -/
theorem lands_buildEntries : ∀ (pairs : List (Object × Object)) {start h : Heap}
    {held : Multiset Slot} {done : List Entry}, start.Sound held →
      start.Carries held (partsOf done) h → h.KeysFit (done.map Entry.key) →
      (buildEntries done pairs h).Lands
        (fun stored k => start.Carries held (partsOf stored) k ∧
          k.KeysFit (stored.map Entry.key))
        (start.Carries held 0)
  | [], _, _, _, _, _, hh, hfit => Action.lands_pure ⟨hh, hfit⟩
  | (key, value) :: rest, start, h, held, done, hstart, hh, hfit => by
    have hentry := lands_entry (lands_build key) (lands_build value) hstart hh hfit
    refine Action.lands_bind (Action.lands_onError hentry ?_) ?_
    · intro k hk
      exact Action.lands_cleanup hstart hk (add_zero _).symm
    rintro stored k ⟨hk, hkfit⟩
    exact lands_buildEntries rest hstart hk hkfit

/-- Elements for objects are carried together with those that are done, and all of them fit. -/
theorem lands_buildElements : ∀ (objects : List Object) {start h : Heap} {held : Multiset Slot}
    {done : List HashedKey}, start.Sound held → start.Carries held (elementsOf done) h →
      h.KeysFit done →
      (buildElements done objects h).Lands
        (fun stored k => start.Carries held (elementsOf stored) k ∧ k.KeysFit stored)
        (start.Carries held 0)
  | [], _, _, _, _, _, hh, hfit => Action.lands_pure ⟨hh, hfit⟩
  | o :: rest, start, h, held, done, hstart, hh, hfit => by
    have helement := lands_element (lands_build o) hstart hh hfit
    refine Action.lands_bind (Action.lands_onError helement ?_) ?_
    · intro k hk
      exact Action.lands_cleanup hstart hk (add_zero _).symm
    rintro stored k ⟨hk, hkfit⟩
    exact lands_buildElements rest hstart hk hkfit

end

end Object

end ValueHeap
