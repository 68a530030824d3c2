import ValueHeap.Proofs.Copy.Corresponds

/-!
# Values that are rearranged

Two values, each in a heap of its own, are rearranged when what they unfold to is the same but for
the order in which the items of lists, tuples and sets and the entries of dicts stand, at any depth.
Slots, and what is shared, do not matter, and classes go by name.

Unfoldings are followed down to one depth after the other.  So nothing has to be said about values
that unfold without end, and two of those can be rearranged as well.

## What is here

* `Payload.groups` — the parts of contents, in the groups that change places as a whole.
* `Heap.Resembles` — values that are the same before one looks at their parts.
* `Heap.RearrangedTo` and `Heap.Rearranged` — values that are rearranged, down to some depth and
  down to every depth.
* `Heap.Rearranged.of_extends` — a value stays what it is while a heap grows.
* `Copied.rearranged` — copies unfold to what the values do that were copied.
-/

set_option autoImplicit false

namespace ValueHeap

/-! ## The parts of contents -/

namespace Payload

/-- The parts of contents, in groups.  An item is a group of its own, and so are a key and the value
under it; the three parts of a slice belong together. -/
def groups : Payload → List (List Value)
  | list items | tuple items => items.map ([·])
  | dict entries => entries.map Entry.parts
  | set elements => elements.map ([·.value])
  | slice start stop step => [[start, stop, step]]
  | _ => []

theorem flatten_groups (p : Payload) : p.groups.flatten = p.parts := by
  cases p with
  | list items | tuple items => rw [groups, ← List.flatMap_def, List.flatMap_singleton']; rfl
  | dict entries => rw [groups, ← List.flatMap_def]; rfl
  | set elements => rw [groups, ← List.flatMap_def, ← List.map_eq_flatMap]; rfl
  | _ => rfl

/-- Contents that are the same before one looks at their parts, in two heaps. -/
inductive Resembles (h k : Heap) : Payload → Payload → Prop
  | str (text : String) : Resembles h k (.str text) (.str text)
  | bytes (data : List UInt8) : Resembles h k (.bytes data) (.bytes data)
  | longInt (n : Int) : Resembles h k (.longInt n) (.longInt n)
  | complex (re im : Binary64) : Resembles h k (.complex re im) (.complex re im)
  | range (p : Progression) : Resembles h k (.range p) (.range p)
  | list (items items' : List Value) : Resembles h k (.list items) (.list items')
  | tuple (items items' : List Value) : Resembles h k (.tuple items) (.tuple items')
  | dict (entries entries' : List Entry) : Resembles h k (.dict entries) (.dict entries')
  | set (elements elements' : List HashedKey) : Resembles h k (.set elements) (.set elements')
  | slice (a b c a' b' c' : Value) : Resembles h k (.slice a b c) (.slice a' b' c')
  | userClass (name : String) (base base' : Option Slot) :
      Resembles h k (.userClass name base) (.userClass name base')
  | userInstance {cls cls' : Slot} (hname : h.className cls = k.className cls') :
      Resembles h k (.userInstance cls) (.userInstance cls')

end Payload

namespace Heap

variable {h k : Heap} {s t : Slot} {p q : Payload} {v w : Value} {n : Nat}

/-- The parts of a value, in groups. -/
def groupsOf (h : Heap) : Value → List (List Value)
  | .ref s => (h.find? s).elim [] Payload.groups
  | _ => []

theorem groupsOf_immediate (hv : v.slot? = none) : h.groupsOf v = [] := by
  cases v with
  | ref s => cases hv
  | _ => rfl

theorem groupsOf_ref (hp : h.find? s = some p) : h.groupsOf (.ref s) = p.groups := by
  rw [groupsOf, hp]
  rfl

/-- Values that are the same before one looks at their parts, in two heaps. -/
inductive Resembles (h k : Heap) : Value → Value → Prop
  | immediate {v : Value} (hv : v.slot? = none) : Resembles h k v v
  | contents {s t : Slot} {p q : Payload} (hp : h.find? s = some p) (hq : k.find? t = some q)
      (hpq : p.Resembles h k q) : Resembles h k (.ref s) (.ref t)

/-! ## Unfoldings up to order -/

/-- Down to a depth, the values unfold to the same, but for the order of groups of parts. -/
def RearrangedTo (h k : Heap) : Nat → Value → Value → Prop
  | 0, v, w => h.Resembles k v w
  | n + 1, v, w => h.Resembles k v w ∧ ∃ groups, groups.Perm (h.groupsOf v) ∧
      List.Forall₂ (List.Forall₂ (RearrangedTo h k n)) groups (k.groupsOf w)

/-- The values unfold to the same, but for the order of groups of parts. -/
def Rearranged (h k : Heap) (v w : Value) : Prop := ∀ n, h.RearrangedTo k n v w

theorem Rearranged.immediate (hv : v.slot? = none) : h.Rearranged k v v := by
  intro n
  cases n with
  | zero => exact .immediate hv
  | succ n =>
    rw [RearrangedTo, groupsOf_immediate hv, groupsOf_immediate hv]
    exact ⟨.immediate hv, [], .nil, .nil⟩

/-- Contents are rearranged if their groups of parts are. -/
theorem Rearranged.contents {groups : List (List Value)} (hp : h.find? s = some p)
    (hq : k.find? t = some q) (hpq : p.Resembles h k q) (hperm : groups.Perm p.groups)
    (hgroups : List.Forall₂ (List.Forall₂ (h.Rearranged k)) groups q.groups) :
    h.Rearranged k (.ref s) (.ref t) := by
  intro n
  cases n with
  | zero => exact .contents hp hq hpq
  | succ n =>
    rw [RearrangedTo, groupsOf_ref hp, groupsOf_ref hq]
    exact ⟨.contents hp hq hpq, groups, hperm,
      hgroups.imp fun _ _ hg => hg.imp fun _ _ hvw => hvw n⟩

/-! ## Heaps that grow -/

theorem className_of_extends (hext : h.Extends k) (hs : (h.find? s).isSome) :
    h.className s = k.className s := by
  obtain ⟨p, hp⟩ := Option.isSome_iff_exists.1 hs
  rw [className, className, hp, hext s p hp]

/-- Contents resemble themselves after a heap has grown. -/
theorem resembles_of_extends (hclosed : h.Closed) (hext : h.Extends k) (hp : h.find? s = some p) :
    p.Resembles h k p := by
  cases p with
  | userInstance cls =>
    exact .userInstance (className_of_extends hext (hclosed s _ hp cls List.mem_cons_self))
  | _ => constructor

/-- **A value stays what it is while a heap grows**, down to any depth. -/
theorem Rearranged.of_extends (hclosed : h.Closed) (hext : h.Extends k) (hv : h.Names v) :
    h.Rearranged k v v := by
  intro n
  induction n generalizing v with
  | zero =>
    cases v with
    | ref s =>
      obtain ⟨p, hp⟩ := Option.isSome_iff_exists.1 (hv s rfl)
      exact .contents hp (hext s p hp) (resembles_of_extends hclosed hext hp)
    | _ => exact .immediate rfl
  | succ n ih =>
    cases v with
    | ref s =>
      obtain ⟨p, hp⟩ := Option.isSome_iff_exists.1 (hv s rfl)
      rw [RearrangedTo, groupsOf_ref hp, groupsOf_ref (hext s p hp)]
      refine ⟨.contents hp (hext s p hp) (resembles_of_extends hclosed hext hp), p.groups, .refl _,
        List.forall₂_same.2 fun g hg => List.forall₂_same.2 fun x hx => ?_⟩
      have hpart : x ∈ p.parts := p.flatten_groups ▸ List.mem_flatten.2 ⟨g, hg, hx⟩
      exact ih (hclosed.names hp hpart)
    | _ => exact immediate rfl (n + 1)

end Heap

/-! ## Copies -/

section Copied

variable {h k : Heap} {p q : Payload} {R : Value → Value → Prop}

/-- New contents resemble those that they were made for. -/
theorem Payload.resembles_of_kindName (hrebuilt : p.isRebuilt = true)
    (hkind : q.kindName = p.kindName) : p.Resembles h k q := by
  cases p with
  | list vs | tuple vs | dict es | set es =>
    cases q <;> first | constructor | simp [kindName] at hkind
  | _ => cases hrebuilt

theorem forall₂_entryParts {es es' : List Entry} (hkeys : es'.map Entry.key = es.map Entry.key)
    (hsame : ∀ key ∈ es.map Entry.key, R key.value key.value)
    (hvalues : List.Forall₂ R (es.map Entry.value) (es'.map Entry.value)) :
    List.Forall₂ (List.Forall₂ R) (es.map Entry.parts) (es'.map Entry.parts) := by
  induction es generalizing es' with
  | nil =>
    obtain rfl := List.map_eq_nil_iff.1 hkeys
    exact .nil
  | cons e es ih =>
    cases es' with
    | nil => cases hkeys
    | cons e' es' =>
      obtain ⟨hkey, hkeys⟩ := List.cons.inj hkeys
      obtain ⟨hvalue, hvalues⟩ := List.forall₂_cons.1 hvalues
      obtain ⟨hfirst, hsame⟩ := List.forall_mem_cons.1 hsame
      refine .cons (.cons ?_ (.cons hvalue .nil)) (ih hkeys hsame hvalues)
      rwa [hkey]

/-- What holds of keys and of the parts that are copied holds of the groups of parts. -/
theorem Payload.forall₂_groups (hrebuilt : p.isRebuilt = true) (hkind : q.kindName = p.kindName)
    (hkeys : q.keys = p.keys) (hsame : ∀ key ∈ p.keys, R key.value key.value)
    (hparts : List.Forall₂ R p.copiedParts q.copiedParts) :
    List.Forall₂ (List.Forall₂ R) p.groups q.groups := by
  have hsingle {vs ws : List Value} (h : List.Forall₂ R vs ws) :
      List.Forall₂ (List.Forall₂ R) (vs.map ([·])) (ws.map ([·])) := by
    rw [List.forall₂_map_left_iff, List.forall₂_map_right_iff]
    exact h.imp fun _ _ hvw => .cons hvw .nil
  cases p with
  | list vs | tuple vs => cases q <;> first | exact hsingle hparts | simp [kindName] at hkind
  | dict es =>
    cases q with
    | dict es' => exact forall₂_entryParts hkeys hsame hparts
    | _ => simp [kindName] at hkind
  | set es =>
    cases q with
    | set es' =>
      obtain rfl : es' = es := hkeys
      rw [groups, List.forall₂_map_left_iff, List.forall₂_map_right_iff]
      exact List.forall₂_same.2 fun key hkey => .cons (hsame key hkey) .nil
    | _ => simp [kindName] at hkind
  | _ => cases hrebuilt

/-- **Copies unfold to what the values do that were copied.** -/
theorem Copied.rearranged {vs ws : List Value} {fresh shared : Multiset Slot} (hclosed : h.Closed)
    (hext : h.Extends k) (hc : Copied h k vs ws fresh shared) :
    List.Forall₂ (h.Rearranged k) vs ws := by
  induction hc with
  | nil => exact .nil
  | immediate hv _ ih => exact .cons (.immediate hv) ih
  | leaf hp _ _ ih =>
    refine .cons (.of_extends hclosed hext ?_) ih
    rintro _ ⟨⟩
    exact Option.isSome_iff_exists.2 ⟨_, hp⟩
  | rebuilt hp _ hq hrebuilt hkind _ hkeys _ _ ihparts ih =>
    have hsame (key : HashedKey) (hkey : key ∈ Payload.keys _) :
        h.Rearranged k key.value key.value :=
      .of_extends hclosed hext (hclosed.names hp (Payload.key_mem_parts hkey))
    refine .cons ?_ ih
    exact .contents hp hq (Payload.resembles_of_kindName hrebuilt hkind) (.refl _)
      (Payload.forall₂_groups hrebuilt hkind hkeys hsame ihparts)

end Copied

end ValueHeap
