import ValueHeap.Proofs.Object.Made

/-!
# A value spells the normal form of its object

Building goes through an object from left to right, and so does its normal form.  A key of a dict
that is found among those before it is the same key as theirs, and one that is not found has been
told apart from them.

## What is here

* `Build.yields_insert` and `Build.yields_add` — one entry or element more.
* `Object.spelt` — the value for an object spells its normal form.
-/

set_option autoImplicit false

namespace ValueHeap

/-! ## One entry or element more -/

namespace Build

variable {start h : Heap} {held : Multiset Slot}

theorem map_fst_modify (pairs : List (Object × Object)) (i : Nat) (o : Object) :
    (pairs.modify i fun pair => (pair.1, o)).map Prod.fst = pairs.map Prod.fst := by
  induction pairs generalizing i with
  | nil => cases i <;> rfl
  | cons pair rest ih =>
    cases i with
    | zero => rfl
    | succ i => exact congrArg (pair.1 :: ·) (ih i)

/-- The key that is carried behind entries, with a value for it, is looked for among theirs. -/
theorem sought_of_made {done : List Entry} {key : HashedKey} {value : Value}
    {pairs : List (Object × Object)} {ko vo : Object}
    (hh : start.Made held h (done.flatMap Entry.parts ++ [key.value] ++ [value])
      (pairs.flatMap Object.pairParts ++ [ko] ++ [vo]))
    (hfit : h.KeysFit (done.map Entry.key)) (hk : h.Hashes key.value key.hash) :
    Compare.Sought h start.levelsLeft key ko (done.map Entry.key) (pairs.map Prod.fst) := by
  obtain ⟨a, b, c, hdone, hkey, -, hnodup, -⟩ := hh.last_two
  exact .of_entries hdone hkey (Multiset.nodup_add.1 hnodup).1 hfit.hashes hk

/-- A key is put among entries that it was not found in, or its value takes the place of another
one. -/
theorem yields_inserted {done : List Entry} {key : HashedKey} (value : Value)
    {pairs : List (Object × Object)} {ko : Object} {levels : Nat} (hc : h.Coherent)
    (hkey : h.Names key.value) (hdone : ∀ k ∈ done.map Entry.key, h.Names k.value)
    (hs : Compare.Sought h levels key ko (done.map Entry.key) (pairs.map Prod.fst)) :
    (insert done key value h).Yields fun stored k => k.Extends h ∧ k.levelsLeft = h.levelsLeft ∧
      match pairs.findIdx? fun e => e.1.sameKey ko with
      | some i => ∃ e, done[i]? = some e ∧ stored = done.set i { e with value }
      | none => stored = done ++ [⟨key, value⟩] ∧ ∀ l ∈ pairs.map Prod.fst,
        l.keyHash = ko.keyHash → Object.judged h.levelsLeft l ko = some false := by
  have hfind := Action.yields_of_lands (lands_find key (done.map Entry.key) hc hkey hdone)
  refine Action.yields_bind (Action.yields_onError hfind) ?_
  rintro place _ ⟨rfl, hr⟩
  obtain ⟨hplace, hnew⟩ := hs.place_eq hr
  rw [List.findIdx?_map] at hplace
  change place = pairs.findIdx? fun e => e.1.sameKey ko at hplace
  rw [← hplace]
  cases place with
  | none => exact Action.yields_pure ⟨Heap.Extends.refl _, rfl, rfl, hnew rfl⟩
  | some i =>
    have hlt : i < done.length := by
      have hlength := hs.length_eq
      rw [List.length_map, List.length_map] at hlength
      rw [hlength]
      exact (List.findIdx?_eq_some_iff_getElem.1 hplace.symm).1
    simp only [Option.bind_some, List.getElem?_eq_getElem hlt, Option.map_some]
    refine Action.yields_bind (Action.yields_release _) ?_
    rintro _ k ⟨hkh, hk⟩
    refine Action.yields_bind (Action.yields_release _) ?_
    rintro _ l ⟨hlk, hl⟩
    exact Action.yields_pure ⟨hlk.trans hkh, hl.trans hk, _, rfl, rfl⟩

/-- **One entry more for a dict under way.** -/
theorem yields_insert {done : List Entry} {key : HashedKey} {value : Value}
    {pairs : List (Object × Object)} {ko vo : Object} (hstart : start.Sound held)
    (hh : start.Made held h (done.flatMap Entry.parts ++ [key.value] ++ [value])
      (pairs.flatMap Object.pairParts ++ [ko] ++ [vo]))
    (hfit : h.KeysFit (done.map Entry.key)) (hk : h.Hashes key.value key.hash)
    (hapart : Object.KeysApart start.levelsLeft (pairs.map Prod.fst)) :
    (insert done key value h).Yields fun stored k =>
      start.MadeEntries held k stored (Object.insertPair pairs (ko, vo)) := by
  have hsought := sought_of_made hh hfit hk
  obtain ⟨a, b, c, hdone, hkey, hvalue, hnodup, hfresh⟩ := hh.last_two
  have hcarries : start.Carries held ({key.value} + {value} + partsOf done) h := by
    refine hh.carries.of_slots (congrArg slotsOf ?_)
    rw [← Multiset.coe_add, ← Multiset.coe_add, add_comm, ← add_assoc]
    rfl
  have hlands := Action.yields_of_lands (lands_insert hstart hcarries hfit hk)
  have hinserted := yields_inserted value hh.carries.sound.coherent (hcarries.names (by simp))
    (fun k hk => hcarries.names (Multiset.mem_add.2 (Or.inr (mem_partsOf_of_key hk)))) hsought
  refine Action.yields_mono (Action.yields_and hlands hinserted) ?_
  rintro stored k ⟨⟨hk, hkfit⟩, hkh, hlevels, hplace⟩
  have hlevels := hlevels.trans hh.levels
  cases hfound : pairs.findIdx? fun e => e.1.sameKey ko with
  | none =>
    rw [hfound] at hplace
    obtain ⟨rfl, hnew⟩ := hplace
    have hinsert : Object.insertPair pairs (ko, vo) = pairs ++ [(ko, vo)] := by
      rw [Object.insertPair, hfound]
    rw [hinsert]
    refine ⟨.of_extends ?_ hnodup hfresh hkh hlevels hk, hkfit, ?_⟩
    · have hall := (hdone.append hkey).append hvalue
      rw [List.flatMap_append, List.flatMap_append]
      rwa [List.append_assoc, List.append_assoc] at hall
    · rw [List.map_append]
      refine hapart.concat (by rw [hsought.hash]; rfl) ?_
      rwa [← hh.levels]
  | some i =>
    rw [hfound] at hplace
    obtain ⟨e, he, rfl⟩ := hplace
    have hinsert : Object.insertPair pairs (ko, vo) = pairs.modify i fun e => (e.1, vo) := by
      rw [Object.insertPair, hfound]
    rw [hinsert]
    -- the key and the value that was there are given back, so their slots are left out
    obtain ⟨slots, hle, hset⟩ := hdone.set hvalue he
    have hle : slots ≤ a + b + c := by
      rw [add_right_comm]
      exact hle.trans (Multiset.le_add_right (a + c) b)
    refine ⟨.of_extends hset (Multiset.nodup_of_le hle hnodup)
      (fun s hs => hfresh s (Multiset.mem_of_le hle hs)) hkh hlevels hk, hkfit, ?_⟩
    rwa [map_fst_modify]

/-- An element is put among others that it was not found in, or given back. -/
theorem yields_added {done : List HashedKey} {value : Value} {os : List Object} {o : Object}
    {levels : Nat} (hc : h.Coherent) (hvalue : h.Names value) (hdone : ∀ k ∈ done, h.Names k.value)
    (hs : ∀ hash, h.Hashes value hash → Compare.Sought h levels ⟨value, hash⟩ o done os) :
    (add done value h).Yields fun stored k => k.Extends h ∧ k.levelsLeft = h.levelsLeft ∧
      if os.any fun e => e.sameKey o then stored = done
      else ∃ hash, o.keyHash = some hash ∧ stored = done ++ [⟨value, hash⟩] ∧
        ∀ l ∈ os, l.keyHash = o.keyHash → Object.judged h.levelsLeft l o = some false := by
  have hword := Action.yields_of_lands (lands_hashOf hc hvalue)
  refine Action.yields_bind (Action.yields_onError hword) ?_
  rintro hash k ⟨rfl, hhash⟩
  have hsought := hs hash hhash
  have hfind := Action.yields_of_lands (lands_find ⟨value, hash⟩ done hc hvalue hdone)
  refine Action.yields_bind (Action.yields_onError hfind) ?_
  rintro place k ⟨rfl, hr⟩
  obtain ⟨hplace, hnew⟩ := hsought.place_eq hr
  rw [← List.findIdx?_isSome, ← hplace]
  cases place with
  | none => exact Action.yields_pure ⟨Heap.Extends.refl _, rfl, hash, hsought.hash, rfl, hnew rfl⟩
  | some i =>
    refine Action.yields_bind (Action.yields_release _) ?_
    rintro _ l ⟨hlk, hl⟩
    exact Action.yields_pure ⟨hlk, hl, rfl⟩

/-- **One element more for a set under way.** -/
theorem yields_add {done : List HashedKey} {value : Value} {os : List Object} {o : Object}
    (hstart : start.Sound held)
    (hh : start.Made held h (done.map HashedKey.value ++ [value]) (os ++ [o]))
    (hfit : h.KeysFit done) (hapart : Object.KeysApart start.levelsLeft os) :
    (add done value h).Yields fun stored k =>
      start.MadeElements held k stored (Object.addElement os o) := by
  obtain ⟨a, b, hdone, hvalue, hnodup, hfresh⟩ := hh.last
  have hcarries : start.Carries held ({value} + elementsOf done) h := by
    refine hh.carries.of_slots (congrArg slotsOf ?_)
    rw [← Multiset.coe_add, add_comm]
    rfl
  have hlands := Action.yields_of_lands (lands_add hstart hcarries hfit)
  have hadded := yields_added hh.carries.sound.coherent (hcarries.names (by simp))
    (fun k hk => hcarries.names (Multiset.mem_add.2 (Or.inr (mem_elementsOf hk))))
    fun hash hhash => Compare.Sought.of_elements hdone hvalue hnodup hfit.hashes hhash
  refine Action.yields_mono (Action.yields_and hlands hadded) ?_
  rintro stored k ⟨⟨hk, hkfit⟩, hkh, hlevels, hplace⟩
  have hlevels := hlevels.trans hh.levels
  rw [Object.addElement]
  split at hplace
  · next hfound =>
    obtain rfl := hplace
    rw [if_pos hfound]
    refine ⟨.of_extends hdone (Multiset.nodup_add.1 hnodup).1 (fun s hs => ?_) hkh hlevels hk,
      hkfit, hapart⟩
    exact hfresh s (Multiset.mem_add.2 (Or.inl hs))
  · next hfound =>
    obtain ⟨hash, hhash, rfl, hnew⟩ := hplace
    rw [if_neg hfound]
    refine ⟨.of_extends ?_ hnodup hfresh hkh hlevels hk, hkfit, ?_⟩
    · rw [List.map_append]
      exact hdone.append hvalue
    · refine hapart.concat (by rw [hhash]; rfl) ?_
      rwa [← hh.levels]

end Build

/-! ## Values for objects -/

namespace Object

open Build

variable {start h : Heap} {held : Multiset Slot} {vs : List Value} {os : List Object}

/-- The value for the object spells its normal form, on top of whatever a heap holds. -/
def Spelt (o : Object) : Prop :=
  ∀ (h : Heap) (held : Multiset Slot), h.Sound held →
    (o.build h).Yields fun v k => h.Made held k [v] [o.normal]

/-- It goes behind values that are done. -/
theorem Spelt.behind {o : Object} (ho : o.Spelt) (hh : start.Made held h vs os) :
    (o.build h).Yields fun v k => h.Extends k ∧ start.Made held k (vs ++ [v]) (os ++ [o.normal]) :=
  Action.yields_mono (ho h _ hh.carries.sound) fun _ _ hk => ⟨hk.carries.kept, hh.concat hk⟩

theorem spelt_immediate {o : Object} {v : Value} (hv : o.immediate? = some v)
    (hbuild : o.build = pure v) (hnormal : o.normal = o) : o.Spelt := by
  intro h held hs
  rw [hbuild, hnormal]
  refine Action.yields_pure ⟨(Heap.Carries.refl hs).of_slots ?_, rfl, 0, .immediate hv .nil,
    Multiset.nodup_zero, fun s hs => absurd hs (Multiset.notMem_zero s)⟩
  rw [slotsOf_coe, List.filterMap_cons_none (Heap.slot?_of_immediate hv)]
  rfl

theorem spelt_plain {o : Object} {p : Payload} (hp : p.parts = []) (hkeys : p.keys = [])
    (ho : ∀ levels, p.Describes levels [] o.normal) (hbuild : o.build = Action.allocate p) :
    o.Spelt := by
  intro h held hs
  rw [hbuild]
  refine Heap.Made.allocate hs ?_ (ho _) (hkeys ▸ .nil h)
  rw [hp]
  exact .refl hs

theorem spelt_bigInt (n : Int) : (bigInt n).Spelt := by
  by_cases hn : n = (Int64.ofInt n).toInt
  · intro h held hs
    rw [build, integer, if_pos hn, normal, if_pos hn]
    exact spelt_immediate (o := int (Int64.ofInt n)) rfl rfl rfl h held hs
  · refine spelt_plain (p := .longInt n) rfl rfl (fun levels => ?_) (if_neg hn)
    rw [normal, if_neg hn]
    exact .longInt hn

theorem spelt_range (first last step : Int64) : (range first last step).Spelt := by
  by_cases hstep : step = 0
  · intro h held hs
    rw [build, hstep, Progression.make?_zero]
    exact Action.yields_raise
  · refine spelt_plain (p := .range ⟨first, last, step, hstep⟩) rfl rfl (fun levels => .range _) ?_
    rw [build, Progression.make?_of_ne hstep]

/-- One entry more for a dict, built from a pair of objects. -/
theorem spelt_entry {key value : Object} {done : List Entry} {pairs : List (Object × Object)}
    (hkey : key.Spelt) (hvalue : value.Spelt) (hstart : start.Sound held)
    (hh : start.MadeEntries held h done pairs) :
    ((do
        let key ← build key
        let hash ← Action.onError (hashOf key) (Action.release [key])
        let value ← Action.onError (build value) (Action.release [key])
        insert done ⟨key, hash⟩ value : Action (List Entry)) h).Yields fun stored k =>
      start.MadeEntries held k stored (insertPair pairs (key.normal, value.normal)) := by
  refine Action.yields_bind (hkey.behind hh.made) ?_
  rintro v k ⟨hhk, hk⟩
  have hname : k.Names v := hk.carries.names (by simp)
  have hhash := Action.yields_of_lands (lands_hashOf hk.carries.sound.coherent hname)
  refine Action.yields_bind (Action.yields_onError hhash) ?_
  rintro hash _ ⟨rfl, hhash⟩
  refine Action.yields_bind (Action.yields_onError (hvalue.behind hk)) ?_
  rintro w l ⟨hkl, hl⟩
  refine yields_insert hstart hl ?_ ?_ hh.apart
  · rw [List.append_assoc] at hl
    exact hh.keysFit hl (hhk.trans hkl)
  · exact hhash.of_agree hkl.agree hk.carries.sound.closed hl.carries.sound.closed (hkl.names hname)

/-- One element more for a set, built from an object. -/
theorem spelt_element {o : Object} {done : List HashedKey} (ho : o.Spelt)
    (hstart : start.Sound held) (hh : start.MadeElements held h done os) :
    ((do
        let value ← build o
        add done value : Action (List HashedKey)) h).Yields fun stored k =>
      start.MadeElements held k stored (addElement os o.normal) := by
  refine Action.yields_bind (ho.behind hh.made) ?_
  rintro v k ⟨hhk, hk⟩
  exact yields_add hstart hk (hh.keysFit hk hhk) hh.apart

mutual

/-- **The value for an object spells its normal form**, in slots of its own. -/
theorem spelt : ∀ o : Object, o.Spelt
  | none => spelt_immediate rfl rfl rfl
  | ellipsis => spelt_immediate rfl rfl rfl
  | bool _ => spelt_immediate rfl rfl rfl
  | int _ => spelt_immediate rfl rfl rfl
  | bigInt n => spelt_bigInt n
  | float _ => spelt_immediate rfl rfl rfl
  | complex re im => spelt_plain rfl rfl (fun _ => .complex re im) rfl
  | str text => spelt_plain rfl rfl (fun _ => .str text) rfl
  | bytes data => spelt_plain rfl rfl (fun _ => .bytes data) rfl
  | list items => by
    intro h held hs
    refine Action.yields_bind (spelt_buildItems items (.refl hs)) ?_
    intro values k hk
    exact hk.allocate hs (.list values _) (.nil k)
  | tuple items => by
    intro h held hs
    refine Action.yields_bind (spelt_buildItems items (.refl hs)) ?_
    intro values k hk
    exact hk.allocate hs (.tuple values _) (.nil k)
  | dict entries => by
    intro h held hs
    refine Action.yields_bind (spelt_buildEntries entries hs (.nil hs)) ?_
    intro stored k hk
    exact hk.made.allocate hs (.dict stored hk.apart) hk.fit
  | set elements => by
    intro h held hs
    refine Action.yields_bind (spelt_buildElements elements hs (.nil hs)) ?_
    intro stored k hk
    exact hk.made.allocate hs (.set stored hk.apart) hk.fit
  | range first last step => spelt_range first last step
  | slice first last step => by
    intro h held hs
    refine Action.yields_bind (spelt first h held hs) ?_
    intro a k hk
    refine Action.yields_bind (Action.yields_onError ((spelt last).behind hk)) ?_
    rintro b l ⟨-, hl⟩
    refine Action.yields_bind (Action.yields_onError ((spelt step).behind hl)) ?_
    rintro c m ⟨-, hm⟩
    exact hm.allocate hs (.slice a b c _ _ _) (.nil m)
  | type _ => spelt_immediate rfl rfl rfl
  | standIn _ => fun _ _ _ => Action.yields_raise

/-- Values for objects go behind those that are done. -/
theorem spelt_buildItems : ∀ (objects : List Object) {start h : Heap} {held : Multiset Slot}
    {done : List Value} {os : List Object}, start.Made held h done os →
      (buildItems done objects h).Yields fun values k =>
        start.Made held k values (os ++ normalItems objects)
  | [], _, _, _, _, os, hh => Action.yields_pure ((List.append_nil os).symm ▸ hh)
  | o :: rest, start, h, held, done, os, hh => by
    refine Action.yields_bind (Action.yields_onError ((spelt o).behind hh)) ?_
    rintro value k ⟨-, hk⟩
    rw [normalItems, List.append_cons]
    exact spelt_buildItems rest hk

/-- Entries for pairs of objects are inserted one after the other. -/
theorem spelt_buildEntries : ∀ (objects : List (Object × Object)) {start h : Heap}
    {held : Multiset Slot} {done : List Entry} {pairs : List (Object × Object)},
      start.Sound held → start.MadeEntries held h done pairs →
      (buildEntries done objects h).Yields fun stored k =>
        start.MadeEntries held k stored ((normalPairs objects).foldl insertPair pairs)
  | [], _, _, _, _, _, _, hh => Action.yields_pure hh
  | (key, value) :: rest, start, h, held, done, pairs, hstart, hh => by
    have hentry := spelt_entry (spelt key) (spelt value) hstart hh
    refine Action.yields_bind (Action.yields_onError hentry) ?_
    intro stored k hk
    exact spelt_buildEntries rest hstart hk

/-- Elements for objects are added one after the other. -/
theorem spelt_buildElements : ∀ (objects : List Object) {start h : Heap} {held : Multiset Slot}
    {done : List HashedKey} {os : List Object},
      start.Sound held → start.MadeElements held h done os →
      (buildElements done objects h).Yields fun stored k =>
        start.MadeElements held k stored ((normalItems objects).foldl addElement os)
  | [], _, _, _, _, _, _, hh => Action.yields_pure hh
  | o :: rest, start, h, held, done, os, hstart, hh => by
    have helement := spelt_element (spelt o) hstart hh
    refine Action.yields_bind (Action.yields_onError helement) ?_
    intro stored k hk
    exact spelt_buildElements rest hstart hk

end

end Object

end ValueHeap
