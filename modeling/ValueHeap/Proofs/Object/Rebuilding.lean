import ValueHeap.Proofs.Object.Building

/-!
# An object that a value spells can be built

An object that a value spells is in its normal form already.  It can also be built, in any heap that
has as many levels left and limits neither allocations nor memory: its keys have hashes and have
been told apart, so nothing is found to be there already, and no comparison goes too deep.  The one
thing that could be in the way is memory in use that does not fit a word.

## What is here

* `Outcome.Ends` — an operation that does end in a result, with the rules for operations put
  together.
* `Budget.Affords` — accounts without limits, with room for so many bytes.
* `Object.Rebuilds` — an object in normal form that can be built.
* `Heap.Spells.rebuilds` — what a value spells can.
-/

set_option autoImplicit false

namespace ValueHeap

/-- The outcome is a result and a heap as `P` says. -/
def Outcome.Ends {α : Type} (P : α → Heap → Prop) (o : Outcome α) : Prop :=
  ∃ a, o.result = .ok a ∧ P a o.heap

namespace Action

variable {α β : Type} {P Q : α → Heap → Prop} {h : Heap} {x : Action α}

/-! ## Operations put together -/

/-- What is known of any result is known of the one that there is. -/
theorem ends_and {o : Outcome α} (hp : o.Ends P) (hq : o.Yields Q) :
    o.Ends fun a k => P a k ∧ Q a k :=
  hp.imp fun a ha => ⟨ha.1, ha.2, hq a ha.1⟩

theorem ends_pure {a : α} (ha : P a h) : ((pure a : Action α) h).Ends P :=
  ⟨a, rfl, ha⟩

theorem ends_bind {mid : β → Heap → Prop} {y : Action β} {f : β → Action α}
    (hy : (y h).Ends mid) (hf : ∀ b k, mid b k → (f b k).Ends P) : ((y >>= f) h).Ends P := by
  obtain ⟨b, hb, hmid⟩ := hy
  rw [bind_apply_ok hb]
  exact hf b _ hmid

theorem ends_onError {cleanup : Action Unit} (hx : (x h).Ends P) :
    (onError x cleanup h).Ends P := by
  obtain ⟨a, ha, hP⟩ := hx
  have hsame : onError x cleanup h = x h := by
    rw [onError]
    generalize x h = o at ha
    rcases o with ⟨_ | _, k, es⟩
    · cases ha
    · rfl
  rw [hsame]
  exact ⟨a, ha, hP⟩

end Action

/-! ## Room for what is built -/

namespace Budget

/-- There is no limit on allocations or memory, and so many bytes more leave the memory in use
within a word. -/
def Affords (b : Budget) (bytes : Nat) : Prop :=
  match b with
  | untracked => True
  | tracked limits usage =>
    limits.allocations = none ∧ limits.memory = none ∧ usage.memory + bytes < wordBound

theorem Affords.mono {b : Budget} {m n : Nat} (hb : b.Affords n) (hle : m ≤ n) : b.Affords m := by
  cases b with
  | untracked => trivial
  | tracked limits usage =>
    exact ⟨hb.1, hb.2.1, Nat.lt_of_le_of_lt (Nat.add_le_add_left hle _) hb.2.2⟩

theorem Affords.charge {b : Budget} {size rest : Nat} (hb : b.Affords (size + rest)) :
    ∃ c, b.charge size = .ok c ∧ c.Affords rest := by
  cases b with
  | untracked => exact ⟨untracked, rfl, trivial⟩
  | tracked limits usage =>
    obtain ⟨hallocations, hmemory, hlt⟩ := hb
    refine ⟨tracked limits ⟨usage.allocations + 1, usage.memory + size⟩, ?_, hallocations, hmemory,
      ?_⟩
    · rw [Budget.charge, hallocations, hmemory]
      exact if_neg (by omega)
    · dsimp only
      omega

end Budget

theorem Action.ends_allocate {h : Heap} {p : Payload} {rest : Nat}
    (hb : h.budget.Affords (p.size + rest)) :
    (Action.allocate p h).Ends fun _ k => k.budget.Affords rest := by
  obtain ⟨c, hc, hrest⟩ := hb.charge
  rw [Action.allocate, Heap.allocate, hc]
  refine ⟨_, rfl, ?_⟩
  show (Heap.place { h with budget := c } p).2.budget.Affords rest
  rwa [Heap.budget_place]

/-! ## Keys -/

namespace Build

variable {start h : Heap} {held : Multiset Slot} {levels : Nat}

/-- A value that spells an object with a hash has one. -/
theorem ends_hashOf {v : Value} {o : Object} {slots : Multiset Slot} (hc : h.Coherent)
    (hv : h.Spells levels [v] [o] slots) (ho : o.keyHash.isSome) :
    (hashOf v h).Ends fun word k => k = h ∧ h.Hashes v word := by
  have hname : h.Names v := hv.names v (List.mem_singleton_self v)
  obtain ⟨r, hr⟩ := Heap.exists_keyHash hc hname
  obtain ⟨word, hword⟩ := Option.isSome_iff_exists.1 ho
  obtain rfl : r = some word := (hv.hash_eq hr).trans hword
  have hlook : (Action.look (fun h => h.keyHash v) h).Ends fun r k => r = some word ∧ k = h := by
    rw [Action.look, hr]
    exact ⟨_, rfl, rfl, rfl⟩
  refine Action.ends_bind hlook ?_
  rintro _ k ⟨rfl, rfl⟩
  exact Action.ends_pure ⟨rfl, .of_keyHash hr⟩

/-- A key that can be told apart from the stored ones with its hash is not found. -/
theorem ends_find {wanted : HashedKey} {stored : List HashedKey} {o : Object} {keys : List Object}
    (hs : Compare.Sought h levels wanted o stored keys)
    (hnew : ∀ l ∈ keys, l.keyHash = o.keyHash → Object.judged h.levelsLeft l o = some false) :
    (find wanted stored h).Ends fun place k => place = none ∧ k = h := by
  have hr : (Compare.position (Compare.within h .total h.levelsLeft) wanted stored).result =
    .ok none := hs.not_found hnew
  refine ⟨none, Action.result_consult_eq_ok.2 hr, rfl, ?_⟩
  show (Action.consult _ h).heap = h
  rw [Action.consult]
  simp only [hr]

/-- Such a key goes behind the entries that are there. -/
theorem ends_insert {done : List Entry} {key : HashedKey} {value : Value}
    {pairs : List (Object × Object)} {ko vo : Object} {rest : Nat}
    (hh : start.Made held h (done.flatMap Entry.parts ++ [key.value] ++ [value])
      (pairs.flatMap Object.pairParts ++ [ko] ++ [vo]))
    (hfit : h.KeysFit (done.map Entry.key)) (hk : h.Hashes key.value key.hash)
    (hlevels : levels ≤ start.levelsLeft)
    (hnew : ∀ l ∈ pairs.map Prod.fst, l.keyHash = ko.keyHash →
      Object.judged levels l ko = some false)
    (hb : h.budget.Affords rest) :
    (insert done key value h).Ends fun _ k => k.budget.Affords rest := by
  have hfind := ends_find (sought_of_made hh hfit hk) fun l hl heq =>
    Object.judged_mono (hh.levels ▸ hlevels) (hnew l hl heq)
  refine Action.ends_bind (Action.ends_onError hfind) ?_
  rintro _ k ⟨rfl, rfl⟩
  exact Action.ends_pure hb

/-- Such an element goes behind the elements that are there. -/
theorem ends_add {done : List HashedKey} {value : Value} {os : List Object} {o : Object}
    {rest : Nat} (hh : start.Made held h (done.map HashedKey.value ++ [value]) (os ++ [o]))
    (hfit : h.KeysFit done) (ho : o.keyHash.isSome) (hlevels : levels ≤ start.levelsLeft)
    (hnew : ∀ l ∈ os, l.keyHash = o.keyHash → Object.judged levels l o = some false)
    (hb : h.budget.Affords rest) :
    (add done value h).Ends fun _ k => k.budget.Affords rest := by
  obtain ⟨a, b, hdone, hvalue, hnodup, -⟩ := hh.last
  refine Action.ends_bind
    (Action.ends_onError (ends_hashOf hh.carries.sound.coherent hvalue ho)) ?_
  rintro hash k ⟨rfl, hhash⟩
  have hsought : Compare.Sought k start.levelsLeft ⟨value, hash⟩ o done os :=
    .of_elements hdone hvalue hnodup hfit.hashes hhash
  have hfind := ends_find hsought fun l hl heq =>
    Object.judged_mono (hh.levels ▸ hlevels) (hnew l hl heq)
  refine Action.ends_bind (Action.ends_onError hfind) ?_
  rintro _ l ⟨rfl, rfl⟩
  exact Action.ends_pure hb

end Build

/-! ## Objects that can be built -/

namespace Object

open Build

variable {start h : Heap} {held : Multiset Slot} {levels rest : Nat} {vs : List Value}
  {os : List Object}

/-- The object is in normal form.  Where so many levels are left and nothing is limited it can be
built, and takes no more memory than its footprint. -/
structure Rebuilds (levels : Nat) (o : Object) : Prop where
  normal : o.normal = o
  ends : ∀ (h : Heap) (held : Multiset Slot) (rest : Nat), h.Sound held → levels ≤ h.levelsLeft →
    h.budget.Affords (o.footprint + rest) → (o.build h).Ends fun _ k => k.budget.Affords rest

/-- It is built behind values that are done. -/
theorem Rebuilds.behind {o : Object} (ho : Rebuilds levels o) (hh : start.Made held h vs os)
    (hlevels : levels ≤ start.levelsLeft) (hb : h.budget.Affords (o.footprint + rest)) :
    (o.build h).Ends fun v k => k.budget.Affords rest ∧ h.Extends k ∧
      start.Made held k (vs ++ [v]) (os ++ [o]) := by
  have hspelt := (spelt o).behind hh
  rw [ho.normal] at hspelt
  exact Action.ends_and (ho.ends h _ rest hh.carries.sound (hh.levels ▸ hlevels) hb) hspelt

theorem normalItems_eq (hos : ∀ o ∈ os, o.normal = o) : normalItems os = os := by
  induction os with
  | nil => rfl
  | cons o os ih =>
    obtain ⟨ho, hos⟩ := List.forall_mem_cons.1 hos
    rw [normalItems, ho, ih hos]

theorem normalPairs_eq {pairs : List (Object × Object)}
    (hpairs : ∀ o ∈ pairs.flatMap pairParts, o.normal = o) : normalPairs pairs = pairs := by
  induction pairs with
  | nil => rfl
  | cons pair pairs ih =>
    rw [List.flatMap_cons, pairParts, List.cons_append, List.forall_mem_cons, List.singleton_append,
      List.forall_mem_cons] at hpairs
    obtain ⟨hkey, hvalue, hpairs⟩ := hpairs
    rw [normalPairs, hkey, hvalue, ih hpairs]

/-- A key behind others that are all told apart. -/
theorem KeysApart.of_append {keys keys' : List Object} {o : Object}
    (hkeys : KeysApart levels (keys ++ o :: keys')) :
    o.keyHash.isSome ∧ ∀ l ∈ keys, l.keyHash = o.keyHash → judged levels l o = some false :=
  ⟨hkeys.hashable o (List.mem_append_right keys List.mem_cons_self), fun l hl =>
    (List.pairwise_append.1 hkeys.apart).2.2 l hl o List.mem_cons_self⟩

/-! ## Parts one after the other -/

theorem ends_buildItems {objects : List Object} (hobjects : ∀ o ∈ objects, Rebuilds levels o)
    {done : List Value} (hh : start.Made held h done os) (hlevels : levels ≤ start.levelsLeft)
    (hb : h.budget.Affords (footprints objects + rest)) :
    (buildItems done objects h).Ends fun values k => k.budget.Affords rest ∧
      start.Made held k values (os ++ objects) := by
  induction objects generalizing h done os with
  | nil =>
    rw [footprints, Nat.zero_add] at hb
    rw [List.append_nil]
    exact Action.ends_pure ⟨hb, hh⟩
  | cons o objects ih =>
    obtain ⟨ho, hobjects⟩ := List.forall_mem_cons.1 hobjects
    rw [footprints, Nat.add_assoc] at hb
    refine Action.ends_bind (Action.ends_onError (ho.behind hh hlevels hb)) ?_
    rintro value k ⟨hkb, -, hk⟩
    rw [List.append_cons]
    exact ih hobjects hk hkb

theorem ends_buildElements {objects : List Object} (hobjects : ∀ o ∈ objects, Rebuilds levels o)
    {done : List HashedKey} (hstart : start.Sound held) (hh : start.MadeElements held h done os)
    (hlevels : levels ≤ start.levelsLeft) (hapart : KeysApart levels (os ++ objects))
    (hb : h.budget.Affords (footprints objects + rest)) :
    (buildElements done objects h).Ends fun stored k => k.budget.Affords rest ∧
      start.MadeElements held k stored (os ++ objects) := by
  induction objects generalizing h done os with
  | nil =>
    rw [footprints, Nat.zero_add] at hb
    rw [List.append_nil]
    exact Action.ends_pure ⟨hb, hh⟩
  | cons o objects ih =>
    obtain ⟨ho, hobjects⟩ := List.forall_mem_cons.1 hobjects
    obtain ⟨hhash, hnew⟩ := hapart.of_append
    rw [footprints, Nat.add_assoc] at hb
    have helement : ((do
          let value ← build o
          add done value : Action (List HashedKey)) h).Ends fun stored k =>
        k.budget.Affords (footprints objects + rest) ∧
          start.MadeElements held k stored (addElement os o.normal) := by
      refine Action.ends_and ?_ (spelt_element (spelt o) hstart hh)
      refine Action.ends_bind (ho.behind hh.made hlevels hb) ?_
      rintro v k ⟨hkb, hhk, hk⟩
      exact ends_add hk (hh.keysFit hk hhk) hhash hlevels hnew hkb
    rw [ho.normal, addElement_of_new fun e he => sameKey_eq_false (hnew e he)] at helement
    refine Action.ends_bind (Action.ends_onError helement) ?_
    rintro stored k ⟨hkb, hk⟩
    rw [List.append_cons] at hapart ⊢
    exact ih hobjects hk hapart hkb

theorem ends_entry {done : List Entry} {pairs : List (Object × Object)} {key value : Object}
    (hkey : Rebuilds levels key) (hvalue : Rebuilds levels value) (hstart : start.Sound held)
    (hh : start.MadeEntries held h done pairs) (hlevels : levels ≤ start.levelsLeft)
    (hhash : key.keyHash.isSome)
    (hnew : ∀ l ∈ pairs.map Prod.fst, l.keyHash = key.keyHash → judged levels l key = some false)
    (hb : h.budget.Affords (key.footprint + (value.footprint + rest))) :
    ((do
        let key ← build key
        let hash ← Action.onError (hashOf key) (Action.release [key])
        let value ← Action.onError (build value) (Action.release [key])
        insert done ⟨key, hash⟩ value : Action (List Entry)) h).Ends fun stored k =>
      k.budget.Affords rest ∧ start.MadeEntries held k stored (pairs ++ [(key, value)]) := by
  have hspelt := spelt_entry (spelt key) (spelt value) hstart hh
  rw [hkey.normal, hvalue.normal, insertPair_of_new fun e he =>
    sameKey_eq_false (hnew e.1 (List.mem_map_of_mem he))] at hspelt
  refine Action.ends_and ?_ hspelt
  refine Action.ends_bind (hkey.behind hh.made hlevels hb) ?_
  rintro v k ⟨hkb, hhk, hk⟩
  obtain ⟨_, b, -, hv, -, -⟩ := hk.last
  refine Action.ends_bind
    (Action.ends_onError (ends_hashOf hk.carries.sound.coherent hv hhash)) ?_
  rintro hash _ ⟨rfl, hword⟩
  refine Action.ends_bind (Action.ends_onError (hvalue.behind hk hlevels hkb)) ?_
  rintro w l ⟨hlb, hkl, hl⟩
  have hname := hkl.names (hk.carries.names (v := v) (by simp))
  refine ends_insert hl ?_ ?_ hlevels hnew hlb
  · rw [List.append_assoc] at hl
    exact hh.keysFit hl (hhk.trans hkl)
  · exact hword.of_agree hkl.agree hk.carries.sound.closed hl.carries.sound.closed hname

theorem ends_buildEntries {objects : List (Object × Object)}
    (hobjects : ∀ o ∈ objects.flatMap pairParts, Rebuilds levels o) {done : List Entry}
    {pairs : List (Object × Object)} (hstart : start.Sound held)
    (hh : start.MadeEntries held h done pairs) (hlevels : levels ≤ start.levelsLeft)
    (hapart : KeysApart levels ((pairs ++ objects).map Prod.fst))
    (hb : h.budget.Affords (pairFootprints objects + rest)) :
    (buildEntries done objects h).Ends fun stored k => k.budget.Affords rest ∧
      start.MadeEntries held k stored (pairs ++ objects) := by
  induction objects generalizing h done pairs with
  | nil =>
    rw [pairFootprints, Nat.zero_add] at hb
    rw [List.append_nil]
    exact Action.ends_pure ⟨hb, hh⟩
  | cons pair objects ih =>
    rw [List.flatMap_cons, pairParts, List.cons_append, List.forall_mem_cons, List.singleton_append,
      List.forall_mem_cons] at hobjects
    obtain ⟨hkey, hvalue, hobjects⟩ := hobjects
    have hbehind := hapart
    rw [List.map_append, List.map_cons] at hbehind
    obtain ⟨hhash, hnew⟩ := hbehind.of_append
    rw [pairFootprints, Nat.add_assoc, Nat.add_assoc] at hb
    have hentry := ends_entry hkey hvalue hstart hh hlevels hhash hnew hb
    refine Action.ends_bind (Action.ends_onError hentry) ?_
    rintro stored k ⟨hkb, hk⟩
    rw [List.append_cons] at hapart ⊢
    exact ih hobjects hk hapart hkb

/-! ## What a value spells -/

theorem rebuilds_immediate {o : Object} {v : Value} (hv : o.immediate? = some v) :
    Rebuilds levels o := by
  cases o <;> cases hv <;>
    exact ⟨rfl, fun _ _ rest _ _ hb => Action.ends_pure (hb.mono (Nat.le_add_left rest _))⟩

theorem rebuilds_plain {o : Object} {p : Payload} (hnormal : o.normal = o)
    (hbuild : o.build = Action.allocate p) (hsize : o.footprint = p.size) : Rebuilds levels o where
  normal := hnormal
  ends h held rest hs hlevels hb := by
    rw [hsize] at hb
    rw [hbuild]
    exact Action.ends_allocate hb

/-- Contents for the items of a list or a tuple are placed when the items are built. -/
theorem ends_sequence {objects : List Object} {contents : List Value → Payload}
    (hobjects : ∀ o ∈ objects, Rebuilds levels o) (hs : h.Sound held)
    (hlevels : levels ≤ h.levelsLeft)
    (hsize : ∀ values, (contents values).size = 64 + 16 * values.length)
    (hb : h.budget.Affords (64 + 16 * objects.length + footprints objects + rest)) :
    ((do
        let values ← buildItems [] objects
        Action.allocate (contents values) : Action Value) h).Ends fun _ k =>
      k.budget.Affords rest := by
  have hb' := hb.mono (m := footprints objects + (64 + 16 * objects.length + rest)) (by omega)
  refine Action.ends_bind (ends_buildItems hobjects (.refl hs) hlevels hb') ?_
  rintro values k ⟨hkb, hk⟩
  obtain ⟨slots, hspells, -, -⟩ := hk.spells
  refine Action.ends_allocate ?_
  rwa [hsize, hspells.length_eq]

theorem ends_set {objects : List Object} (hobjects : ∀ o ∈ objects, Rebuilds levels o)
    (hapart : KeysApart levels objects) (hs : h.Sound held) (hlevels : levels ≤ h.levelsLeft)
    (hb : h.budget.Affords ((set objects).footprint + rest)) :
    ((set objects).build h).Ends fun _ k => k.budget.Affords rest := by
  have hb' := hb.mono (m := footprints objects + (64 + 32 * objects.length + rest))
    (by rw [footprint]; omega)
  refine Action.ends_bind (ends_buildElements hobjects hs (.nil hs) hlevels hapart hb') ?_
  rintro stored k ⟨hkb, hk⟩
  obtain ⟨slots, hspells, -, -⟩ := hk.made.spells
  have hlength := hspells.length_eq
  rw [List.length_map, List.nil_append] at hlength
  refine Action.ends_allocate ?_
  rwa [Payload.size, hlength]

theorem ends_dict {pairs : List (Object × Object)}
    (hpairs : ∀ o ∈ pairs.flatMap pairParts, Rebuilds levels o)
    (hapart : KeysApart levels (pairs.map Prod.fst)) (hs : h.Sound held)
    (hlevels : levels ≤ h.levelsLeft) (hb : h.budget.Affords ((dict pairs).footprint + rest)) :
    ((dict pairs).build h).Ends fun _ k => k.budget.Affords rest := by
  have hb' := hb.mono (m := pairFootprints pairs + (64 + 48 * pairs.length + rest))
    (by rw [footprint]; omega)
  refine Action.ends_bind (ends_buildEntries hpairs hs (.nil hs) hlevels hapart hb') ?_
  rintro stored k ⟨hkb, hk⟩
  obtain ⟨slots, hspells, -, -⟩ := hk.made.spells
  obtain ⟨_, -, hkeys⟩ := hspells.keys
  have hlength := hkeys.length_eq
  rw [List.length_map, List.length_map, List.length_map, List.nil_append] at hlength
  refine Action.ends_allocate ?_
  rwa [Payload.size, hlength]

theorem ends_slice {x y z : Object} (hx : Rebuilds levels x) (hy : Rebuilds levels y)
    (hz : Rebuilds levels z) (hs : h.Sound held) (hlevels : levels ≤ h.levelsLeft)
    (hb : h.budget.Affords ((slice x y z).footprint + rest)) :
    ((slice x y z).build h).Ends fun _ k => k.budget.Affords rest := by
  have hb' := hb.mono (m := x.footprint + (y.footprint + (z.footprint + (64 + rest))))
    (by rw [footprint]; omega)
  refine Action.ends_bind (hx.behind (.refl hs) hlevels hb') ?_
  rintro a k ⟨hkb, -, hk⟩
  refine Action.ends_bind (Action.ends_onError (hy.behind hk hlevels hkb)) ?_
  rintro b l ⟨hlb, -, hl⟩
  refine Action.ends_bind (Action.ends_onError (hz.behind hl hlevels hlb)) ?_
  rintro c m ⟨hmb, -, -⟩
  exact Action.ends_allocate hmb

/-- An object is built when its parts are. -/
theorem rebuilds_of_describes {p : Payload} {parts : List Object} {o : Object}
    (ho : p.Describes levels parts o) (hparts : ∀ q ∈ parts, Rebuilds levels q) :
    Rebuilds levels o := by
  cases ho with
  | str | bytes | complex => exact rebuilds_plain rfl rfl rfl
  | longInt hn => exact rebuilds_plain (by rw [normal, if_neg hn]) (if_neg hn) rfl
  | range p =>
    refine rebuilds_plain (p := .range p) rfl ?_ rfl
    rw [build, Progression.make?_of_ne p.step_ne]
  | list items =>
    refine ⟨by rw [normal, normalItems_eq fun q hq => (hparts q hq).normal], ?_⟩
    exact fun h held rest hs hlevels => ends_sequence hparts hs hlevels fun _ => rfl
  | tuple items =>
    refine ⟨by rw [normal, normalItems_eq fun q hq => (hparts q hq).normal], ?_⟩
    exact fun h held rest hs hlevels => ends_sequence hparts hs hlevels fun _ => rfl
  | dict entries hkeys =>
    refine ⟨?_, fun h held rest hs hlevels => ends_dict hparts hkeys hs hlevels⟩
    rw [normal, normalPairs_eq fun q hq => (hparts q hq).normal, hkeys.foldl_insertPair]
  | set elements hkeys =>
    refine ⟨?_, fun h held rest hs hlevels => ends_set hparts hkeys hs hlevels⟩
    rw [normal, normalItems_eq fun q hq => (hparts q hq).normal, hkeys.foldl_addElement]
  | slice a b c x y z =>
    obtain ⟨hx, hparts⟩ := List.forall_mem_cons.1 hparts
    obtain ⟨hy, hparts⟩ := List.forall_mem_cons.1 hparts
    have hz := hparts z (List.mem_singleton_self z)
    refine ⟨by rw [normal, hx.normal, hy.normal, hz.normal], ?_⟩
    exact fun h held rest hs hlevels => ends_slice hx hy hz hs hlevels

end Object

/-- **What a value spells can be built**, wherever as many levels are left. -/
theorem Heap.Spells.rebuilds {h : Heap} {levels : Nat} {vs : List Value} {os : List Object}
    {slots : Multiset Slot} (hs : h.Spells levels vs os slots) :
    ∀ o ∈ os, Object.Rebuilds levels o := by
  -- along the values and their parts, so that parts come before what they are parts of
  induction hs with
  | nil => exact fun _ ho => absurd ho List.not_mem_nil
  | immediate hv _ ih => exact List.forall_mem_cons.2 ⟨Object.rebuilds_immediate hv, ih⟩
  | contents _ ho _ _ ihparts ih =>
    exact List.forall_mem_cons.2 ⟨Object.rebuilds_of_describes ho ihparts, ih⟩

end ValueHeap
