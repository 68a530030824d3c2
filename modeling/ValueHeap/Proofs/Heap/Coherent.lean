import ValueHeap.Proofs.Compare.Settles
import ValueHeap.Proofs.Heap.Accounts

/-!
# Coherent heaps

A heap is coherent when what its contents say of other slots is true.  Only lists change while they
are in use, and no list can be reached from a key, so what is said of keys stays true when lists
change, when slots are released, and when new ones are filled.

## What is here

* `Heap.Fits` — contents whose keys carry their hashes and are apart from each other, and whose
  classes are classes.
* `Heap.Coherent` — all contents in use fit, refer to slots in use, and lie in layers: the
  references of everything but lists go down.
* `Heap.Agree` — two heaps that tell the same of the slots that both have in use, lists aside.
* `Heap.Fits.of_agree` — contents that fit one heap fit another one that agrees with it.
-/

set_option autoImplicit false

namespace ValueHeap

open Filter

theorem Value.eq_ref_of_slot? {v : Value} {s : Slot} (hs : v.slot? = some s) : v = .ref s := by
  cases v with
  | ref t => exact congrArg Value.ref (Option.some.inj hs)
  | _ => cases hs

namespace Payload

/-- Whether the contents are a list. -/
def isList : Payload → Bool
  | list _ => true
  | _ => false

/-- The slots that must hold a class. -/
def classSlots : Payload → List Slot
  | userClass _ base => base.toList
  | userInstance cls => [cls]
  | _ => []

theorem classSlots_subset (p : Payload) : p.classSlots ⊆ p.children := by
  cases p with
  | userClass name base => exact List.Subset.refl _
  | userInstance cls => exact List.Subset.refl _
  | _ => exact List.nil_subset _

theorem mem_children_of_part {p : Payload} {s : Slot} (h : .ref s ∈ p.parts) : s ∈ p.children := by
  cases p with
  | userClass name base => exact absurd h List.not_mem_nil
  | userInstance cls => exact absurd h List.not_mem_nil
  | _ => exact List.mem_filterMap.2 ⟨_, h, rfl⟩

theorem key_mem_parts {p : Payload} {k : HashedKey} (h : k ∈ p.keys) : k.value ∈ p.parts := by
  cases p with
  | dict entries =>
    obtain ⟨e, he, rfl⟩ := List.mem_map.1 h
    exact List.mem_flatMap.2 ⟨e, he, List.mem_cons_self⟩
  | set elements => exact List.mem_map_of_mem h
  | _ => exact absurd h List.not_mem_nil

end Payload

namespace Heap

/-! ## Contents that fit -/

/-- What contents say of other slots is true. -/
structure Fits (h : Heap) (p : Payload) : Prop where
  /-- Keys carry their hashes, and no two are alike. -/
  keys : h.KeysFit p.keys
  /-- Bases and classes are classes. -/
  classes : ∀ s ∈ p.classSlots, ∃ name base, h.find? s = some (.userClass name base)

theorem KeysFit.nil (h : Heap) : h.KeysFit [] :=
  ⟨fun _ hk => absurd hk List.not_mem_nil, .nil⟩

/-- Contents without keys and classes fit. -/
theorem Fits.plain {h : Heap} {p : Payload} (hk : p.keys = []) (hc : p.classSlots = []) :
    h.Fits p :=
  ⟨hk ▸ .nil h, fun _ hs => absurd (hc ▸ hs) List.not_mem_nil⟩

/-- Whatever a slot in use refers to is in use. -/
def Closed (h : Heap) : Prop := ∀ s p, h.find? s = some p → ∀ t ∈ p.children, (h.find? t).isSome

/-- The slots can be ranked so that the references of everything but lists go down. -/
def Layered (h : Heap) : Prop :=
  ∃ rank : Slot → Nat, ∀ s p, h.find? s = some p → p.isList = false →
    ∀ t ∈ p.children, rank t < rank s

/-- What the contents of a heap say of each other is true. -/
structure Coherent (h : Heap) : Prop where
  closed : h.Closed
  fits : ∀ s p, h.find? s = some p → h.Fits p
  layered : h.Layered

theorem Coherent.keyed {h : Heap} (hc : h.Coherent) : h.Keyed :=
  fun _ p hp => (hc.fits _ p hp).keys

/-- The parts of contents name slots in use. -/
theorem Closed.names {h : Heap} {s : Slot} {p : Payload} {v : Value} (hc : h.Closed)
    (hp : h.find? s = some p) (hv : v ∈ p.parts) : h.Names v := by
  rintro t rfl
  exact hc s p hp t (Payload.mem_children_of_part hv)

/-! ## Heaps that agree -/

/-- Two heaps tell the same of every slot that both have in use, except that lists may differ. -/
def Agree (h k : Heap) : Prop :=
  ∀ s p q, h.find? s = some p → k.find? s = some q → p = q ∨ (p.isList = true ∧ q.isList = true)

variable {h k : Heap}

theorem Extends.agree (hhk : h.Extends k) : h.Agree k := by
  intro s p q hp hq
  rw [hhk s p hp] at hq
  exact Or.inl (Option.some.inj hq)

theorem Extends.agree_symm (hkh : k.Extends h) : h.Agree k := by
  intro s p q hp hq
  rw [hkh s q hq] at hp
  exact Or.inl (Option.some.inj hp).symm

theorem className_of_agree {s t : Slot} {p : Payload} (hag : h.Agree k) (hh : h.Closed)
    (hk : k.Closed) (hp : h.find? s = some p) (hq : k.find? s = some p) (ht : t ∈ p.children) :
    h.className t = k.className t := by
  obtain ⟨u, hu⟩ := Option.isSome_iff_exists.1 (hh s p hp t ht)
  obtain ⟨w, hw⟩ := Option.isSome_iff_exists.1 (hk s p hq t ht)
  rw [className, className, hu, hw]
  rcases hag t u w hu hw with rfl | ⟨hul, hwl⟩
  · rfl
  · cases u <;> cases hul
    cases w <;> cases hwl
    rfl

/-- A value with a hash has the same form in heaps that agree, as long as it is in use in both. -/
theorem form_eq_of_agree {n : Nat} {v : Value} {word : UInt64} (hag : h.Agree k) (hh : h.Closed)
    (hk : k.Closed) (hv : h.keyHashWithin n v = .ok (some word)) (hkv : k.Names v) (depth : Nat) :
    h.form depth v = k.form depth v := by
  induction n generalizing v word depth with
  | zero =>
    cases v with
    | ref s => cases hv
    | _ => cases depth <;> rfl
  | succ n ih =>
    cases v with
    | ref s =>
      obtain ⟨p, hp⟩ := Option.isSome_iff_exists.1 (names_of_keyHashWithin hv s rfl)
      obtain ⟨q, hq⟩ := Option.isSome_iff_exists.1 (hkv s rfl)
      rw [keyHashWithin, read_eq_ok_iff.2 hp] at hv
      rcases hag s p q hp hq with rfl | ⟨hpl, -⟩
      · have hlabel : h.labelOf s p = k.labelOf s p := by
          cases p with
          | userInstance cls =>
            rw [labelOf, labelOf, className_of_agree hag hh hk hp hq List.mem_cons_self]
          | _ => rfl
        cases depth with
        | zero => rw [form, form, label_ref hp, label_ref hq, hlabel]
        | succ depth =>
          rw [form_ref hp, form_ref hq, hlabel]
          congr 1
          cases p with
          | tuple items =>
            simp only [KeyHash.ofPayload] at hv
            cases hall : KeyHash.all (h.keyHashWithin n) items with
            | error f => simp [hall, Except.map] at hv
            | ok found =>
              cases found with
              | none => simp [hall, Except.map] at hv
              | some words =>
                rw [KeyHash.all_eq_ok_some_iff, List.forall₂_iff_get] at hall
                refine List.map_congr_left fun x hx => ?_
                obtain ⟨i, hi, rfl⟩ := List.getElem_of_mem hx
                exact ih (hall.2 i hi (hall.1 ▸ hi)) (hk.names hq hx) depth
          | list => cases hv
          | dict => cases hv
          | set => cases hv
          | slice => cases hv
          | _ => rfl
      · cases p <;> cases hpl
        cases hv
    | _ => cases depth <;> rfl

theorem Hashes.of_agree {v : Value} {word : UInt64} (hag : h.Agree k) (hh : h.Closed)
    (hk : k.Closed) (hv : h.Hashes v word) (hkv : k.Names v) : k.Hashes v word := by
  obtain ⟨n, hn⟩ := hv
  exact Hashes.of_form_eq ⟨n, hn⟩
    (Eventually.of_forall (form_eq_of_agree hag hh hk hn hkv))

/-- Keys stay as they should be. -/
theorem KeysFit.of_agree {keys : List HashedKey} (hag : h.Agree k) (hh : h.Closed)
    (hk : k.Closed) (hfit : h.KeysFit keys) (hnames : ∀ key ∈ keys, k.Names key.value) :
    k.KeysFit keys where
  hashes key hkey := (hfit.hashes key hkey).of_agree hag hh hk (hnames key hkey)
  apart := by
    refine hfit.apart.imp_of_mem fun {a b} ha hb hab => ?_
    obtain ⟨m, hm⟩ := hfit.hashes a ha
    obtain ⟨n, hn⟩ := hfit.hashes b hb
    filter_upwards [hab] with depth hne
    rwa [← form_eq_of_agree hag hh hk hm (hnames a ha),
      ← form_eq_of_agree hag hh hk hn (hnames b hb)]

/-- **Contents that fit one heap fit another one that agrees with it**, if what they refer to is in
use there. -/
theorem Fits.of_agree {p : Payload} (hag : h.Agree k) (hh : h.Closed) (hk : k.Closed)
    (hfit : h.Fits p) (hp : ∀ t ∈ p.children, (k.find? t).isSome) : k.Fits p where
  keys := by
    refine hfit.keys.of_agree hag hh hk fun key hkey => ?_
    rintro t ht
    exact hp t (Payload.mem_children_of_part (ht ▸ Payload.key_mem_parts hkey))
  classes t ht := by
    obtain ⟨name, base, hc⟩ := hfit.classes t ht
    obtain ⟨q, hq⟩ := Option.isSome_iff_exists.1 (hp t (p.classSlots_subset ht))
    rcases hag t _ q hc hq with rfl | ⟨hl, -⟩
    · exact ⟨name, base, hq⟩
    · cases hl

end Heap

end ValueHeap
