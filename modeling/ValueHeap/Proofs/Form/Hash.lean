import Mathlib.Data.List.Forall2
import Mathlib.Order.Filter.AtTopBot.Basic
import ValueHeap.Proofs.Form.OfValue
import ValueHeap.Proofs.KeyHash.Residue

/-!
# Hashes can be read off forms

The hash of a value as a key depends on no more than the form of the value, so what compares equal
hashes equal.  The argument follows the levels of tuples: the form of a tuple holds the forms of its
items, and its hash is mixed from theirs.

## What is here

* `Heap.Hashes` — the value has this hash, whatever the number of levels it takes to find out.
* `Heap.keyHashWithin_mono` — more levels do not change a hash.
* `Heap.keyHashWithin_of_form_eq` — values with the same form have the same hash.
* `Heap.eventually_form_ne` — values with different hashes have different forms from some depth on.
-/

set_option autoImplicit false

namespace ValueHeap

open Filter

/-! ## Hashes of several values -/

theorem forall₂_of_left {α β γ : Type} {R : α → β → Prop} {S : α → γ → Prop} {T : β → γ → Prop}
    {xs : List α} {ys : List β} {zs : List γ} (h : ∀ x y z, R x y → S x z → T y z)
    (hxy : List.Forall₂ R xs ys) (hxz : List.Forall₂ S xs zs) : List.Forall₂ T ys zs := by
  induction hxy generalizing zs with
  | nil =>
    cases hxz
    exact .nil
  | cons hr _ ih =>
    cases hxz with
    | cons hs hrest => exact .cons (h _ _ _ hr hs) (ih hrest)

theorem map_eq_map_iff {α β γ : Type} {f : α → γ} {g : β → γ} {xs : List α} {ys : List β} :
    xs.map f = ys.map g ↔ List.Forall₂ (fun x y => f x = g y) xs ys := by
  rw [← List.forall₂_eq_eq_eq, List.forall₂_map_left_iff, List.forall₂_map_right_iff]

namespace KeyHash

variable {hash hash' : Value → Except Fault (Option UInt64)}

theorem all_mono {items : List Value} {r : Option (List UInt64)}
    (h : ∀ v ∈ items, ∀ r, hash v = .ok r → hash' v = .ok r) (hr : all hash items = .ok r) :
    all hash' items = .ok r := by
  induction items generalizing r with
  | nil => exact hr
  | cons v rest ih =>
    have ih {r} := ih (r := r) fun w hw => h w (List.mem_cons_of_mem v hw)
    rw [all] at hr ⊢
    cases hv : hash v with
    | error f => simp [hv] at hr
    | ok word =>
      rw [h v List.mem_cons_self word hv]
      rw [hv] at hr
      cases word with
      | none => exact hr
      | some word =>
        cases hrest : all hash rest with
        | error f => simp [hrest, Except.map] at hr
        | ok words =>
          rw [hrest] at hr
          rw [ih hrest]
          exact hr

/-- Several values have hashes exactly when each of them has one. -/
theorem all_eq_ok_some_iff {items : List Value} {words : List UInt64} :
    all hash items = .ok (some words) ↔
      List.Forall₂ (fun v word => hash v = .ok (some word)) items words := by
  induction items generalizing words with
  | nil =>
    rw [all, List.forall₂_nil_left_iff, Except.ok.injEq, Option.some_inj]
    exact eq_comm
  | cons v rest ih =>
    rw [all, List.forall₂_cons_left_iff]
    constructor
    · intro h
      split at h
      · cases h
      · cases h
      · next word hv =>
        cases hrest : all hash rest with
        | error f => simp [hrest, Except.map] at h
        | ok found =>
          cases found with
          | none => simp [hrest, Except.map] at h
          | some others =>
            simp only [hrest, Except.map, Option.map_some, Except.ok.injEq, Option.some_inj] at h
            exact ⟨word, others, hv, ih.1 hrest, h.symm⟩
    · rintro ⟨word, others, hv, hrest, rfl⟩
      rw [hv, ih.2 hrest]
      rfl

/-- Hashes that go with something about each value go with it about several values. -/
theorem all_of_map_eq {α : Type} {f g : Value → α} {xs ys : List Value} {words : List UInt64}
    (hstep : ∀ x y word, f x = g y → hash x = .ok (some word) → hash' y = .ok (some word))
    (hxy : xs.map f = ys.map g) (hall : all hash xs = .ok (some words)) :
    all hash' ys = .ok (some words) := by
  rw [all_eq_ok_some_iff] at hall ⊢
  exact forall₂_of_left hstep (map_eq_map_iff.1 hxy) hall

theorem ofRange_eq_of_digits {p q : Progression} (h : p.digits = q.digits) :
    ofRange p = ofRange q := by
  rw [Progression.digits, Progression.digits] at h
  rw [ofRange, ofRange]
  rcases hp : p.length with _ | _ | m <;> rcases hq : q.length with _ | _ | n <;>
    simp [hp, hq] at h ⊢
  · rw [h]
  · obtain ⟨hstart, hstep, rfl⟩ := h
    rw [hstart, hstep]

end KeyHash

/-! ## Hashes and levels -/

namespace Heap

theorem keyHashWithin_succ_of_ok {h : Heap} {n : Nat} {v : Value} {r : Option UInt64}
    (hr : h.keyHashWithin n v = .ok r) : h.keyHashWithin (n + 1) v = .ok r := by
  induction n generalizing v r with
  | zero => cases v <;> first | exact hr | cases hr
  | succ n ih =>
    cases v with
    | ref s =>
      rw [keyHashWithin] at hr ⊢
      split at hr
      · next p hp =>
        cases p with
        | tuple items =>
          rw [KeyHash.ofPayload] at hr ⊢
          cases hall : KeyHash.all (h.keyHashWithin n) items with
          | error f => simp [hall, Except.map] at hr
          | ok words =>
            rw [hall] at hr
            rw [KeyHash.all_mono (fun v _ r => ih (v := v) (r := r)) hall]
            exact hr
        | _ => exact hr
      · cases hr
    | _ => exact hr

/-- More levels do not change a hash. -/
theorem keyHashWithin_mono {h : Heap} {m n : Nat} {v : Value} {r : Option UInt64} (hmn : m ≤ n)
    (hr : h.keyHashWithin m v = .ok r) : h.keyHashWithin n v = .ok r := by
  induction hmn with
  | refl => exact hr
  | step _ ih => exact keyHashWithin_succ_of_ok ih

theorem keyHashWithin_unique {h : Heap} {m n : Nat} {v : Value} {r r' : Option UInt64}
    (hr : h.keyHashWithin m v = .ok r) (hr' : h.keyHashWithin n v = .ok r') : r = r' := by
  have hm := keyHashWithin_mono (Nat.le_max_left m n) hr
  have hn := keyHashWithin_mono (Nat.le_max_right m n) hr'
  exact Except.ok.inj (hm.symm.trans hn)

/-- A value has a hash: some number of levels is enough to find it. -/
def Hashes (h : Heap) (v : Value) (word : UInt64) : Prop :=
  ∃ n, h.keyHashWithin n v = .ok (some word)

theorem Hashes.unique {h : Heap} {v : Value} {word word' : UInt64} (hw : h.Hashes v word)
    (hw' : h.Hashes v word') : word = word' := by
  obtain ⟨m, hm⟩ := hw
  obtain ⟨n, hn⟩ := hw'
  exact Option.some.inj (keyHashWithin_unique hm hn)

theorem Hashes.of_keyHash {h : Heap} {v : Value} {word : UInt64}
    (hw : h.keyHash v = .ok (some word)) : h.Hashes v word :=
  ⟨_, hw⟩

theorem names_of_keyHashWithin {h : Heap} {n : Nat} {v : Value} {r : Option UInt64}
    (hr : h.keyHashWithin n v = .ok r) : h.Names v := by
  rintro s rfl
  cases n with
  | zero => cases hr
  | succ n =>
    rw [keyHashWithin] at hr
    split at hr
    · next p hp => exact Option.isSome_iff_exists.2 ⟨p, read_eq_ok_iff.1 hp⟩
    · cases hr

/-! ## Hashes and forms -/

/-- The hash of a number is that of the number it stands for. -/
theorem keyHashWithin_of_number {h : Heap} {v : Value} {m : Number} (n : Nat)
    (hm : Compare.numberOf h v = .ok (some m)) :
    h.keyHashWithin (n + 1) v = .ok (some m.keyHash) := by
  cases v with
  | ref s =>
    rw [Compare.numberOf] at hm
    rw [keyHashWithin]
    cases hp : h.read s with
    | error f => simp [hp, Except.map] at hm
    | ok p => cases p <;> simp [hp, Except.map] at hm <;> subst hm <;> rfl
  | none => cases hm
  | ellipsis => cases hm
  | builtin ty => cases hm
  | _ => cases hm; rfl

theorem names_of_label_eq {h k : Heap} {a b : Value} (ha : h.Names a)
    (hl : h.label a = k.label b) : k.Names b := by
  rintro t rfl
  by_contra ht
  rw [label, Option.not_isSome_iff_eq_none.1 ht] at hl
  have hshelf := congrArg Form.Label.shelf hl
  rcases h.label_cases ha with ⟨rfl, hla⟩ | ⟨_, _, -, -, -, hla⟩ |
      ⟨_, _, _, _, -, -, -, -, -, hla⟩ <;>
    rw [hla] at hshelf <;>
    simp [Form.Label.absent, Form.Label.number, Form.Label.dangling] at hshelf

theorem compare_data {xs ys : List UInt8}
    (h : (xs.map fun b => (b.toNat : Int)) = ys.map fun b => (b.toNat : Int)) : xs = ys :=
  List.map_injective_iff.2 (fun _ _ hab => UInt8.toNat_inj.1 (Int.ofNat_inj.1 hab)) h

/-- Contents of one kind with the same label have the same hash, if that of a tuple goes with its
items. -/
theorem ofPayload_of_label_eq {h k : Heap} {s t : Slot} {p q : Payload} {word : UInt64}
    {hash hash' : Value → Except Fault (Option UInt64)} (hk : p.SameKind q)
    (hl : h.labelOf s p = k.labelOf t q)
    (hitems : ∀ xs ys words, p = .tuple xs → q = .tuple ys →
      KeyHash.all hash xs = .ok (some words) → KeyHash.all hash' ys = .ok (some words))
    (ha : KeyHash.ofPayload hash s p = .ok (some word)) :
    KeyHash.ofPayload hash' t q = .ok (some word) := by
  cases hk with
  | str x y =>
    have htext : x = y := congrArg Form.Label.text hl
    exact htext ▸ ha
  | bytes x y =>
    simp only [labelOf, Form.Label.typed, Form.Label.mk.injEq, List.append_cancel_left_eq,
      true_and, and_true] at hl
    exact compare_data hl ▸ ha
  | tuple xs ys =>
    rw [KeyHash.ofPayload] at ha ⊢
    cases hall : KeyHash.all hash xs with
    | error f => simp [hall, Except.map] at ha
    | ok found =>
      cases found with
      | none => simp [hall, Except.map] at ha
      | some words =>
        rw [hall] at ha
        rw [hitems xs ys words rfl rfl hall]
        exact ha
  | range x y =>
    simp only [labelOf, Form.Label.typed, Form.Label.mk.injEq, List.append_cancel_left_eq,
      true_and, and_true] at hl
    rw [KeyHash.ofPayload, ← KeyHash.ofRange_eq_of_digits hl]
    exact ha
  | list xs ys => cases ha
  | dict xs ys => cases ha
  | set xs ys => cases ha
  | slice a b c d e f => cases ha

/-- **Values with the same form have the same hash.**  They may need one level more or less, since
a long integer takes a slot and a machine integer does not. -/
theorem keyHashWithin_of_form_eq {h k : Heap} {n : Nat} {a b : Value} {word : UInt64}
    (ha : h.keyHashWithin n a = .ok (some word)) (hf : h.form n a = k.form n b) :
    k.keyHashWithin (n + 1) b = .ok (some word) := by
  have hnames := names_of_keyHashWithin ha
  have hl := label_eq_of_form_eq hf
  have hmore := keyHashWithin_succ_of_ok ha
  cases matched_of_label_eq hnames (names_of_label_eq hnames hl) hl with
  | number hm hn hd =>
    rw [keyHashWithin_of_number n hn, ← Number.keyHash_eq_of_digits hd,
      ← keyHashWithin_of_number n hm, hmore]
  | immediate hi => rcases hi with rfl | rfl | ⟨ty, rfl⟩ <;> exact hmore
  | @nominal s p q hp hq hpn hqn =>
    rw [keyHashWithin, read_eq_ok_iff.2 hp] at hmore
    rw [keyHashWithin, read_eq_ok_iff.2 hq]
    cases p <;> simp [Payload.isNominal] at hpn <;> cases q <;>
      simp [Payload.isNominal] at hqn <;> exact hmore
  | @contents s t p q hp hq hk hc =>
    -- contents take a level, so the items of a tuple have one less
    cases n with
    | zero => cases ha
    | succ n =>
      rw [keyHashWithin, read_eq_ok_iff.2 hp] at ha
      rw [keyHashWithin, read_eq_ok_iff.2 hq]
      rw [form_ref hp, form_ref hq, Form.node.injEq] at hf
      refine ofPayload_of_label_eq hk hc (fun xs ys words hxs hys hall => ?_) ha
      subst hxs hys
      exact KeyHash.all_of_map_eq (fun x y w hxy hx => keyHashWithin_of_form_eq hx hxy) hf.2 hall

/-- A hash goes with the form from some depth on. -/
theorem Hashes.of_form_eq {h k : Heap} {a b : Value} {word : UInt64} (ha : h.Hashes a word)
    (hf : ∀ᶠ n in atTop, h.form n a = k.form n b) : k.Hashes b word := by
  obtain ⟨m, hm⟩ := ha
  obtain ⟨n, hn, hmn⟩ := (hf.and (eventually_ge_atTop m)).exists
  exact ⟨n + 1, keyHashWithin_of_form_eq (keyHashWithin_mono hmn hm) hn⟩

/-- Values with different hashes have different forms from some depth on. -/
theorem eventually_form_ne {h : Heap} {a b : Value} {word word' : UInt64} (ha : h.Hashes a word)
    (hb : h.Hashes b word') (hne : word ≠ word') : ∀ᶠ n in atTop, h.form n a ≠ h.form n b := by
  obtain ⟨m, hm⟩ := ha
  filter_upwards [eventually_ge_atTop m] with n hmn hf
  exact hne (Hashes.unique ⟨n + 1, keyHashWithin_of_form_eq (keyHashWithin_mono hmn hm) hf⟩ hb)

end Heap

end ValueHeap
