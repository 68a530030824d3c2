import ValueHeap.Proofs.Compare.Lockstep
import ValueHeap.Proofs.Object.Written

/-!
# Twins

Two values are twins when they are plain data and the same object is written out of both.  Each may
be in a heap of its own, and what is one value in the first heap may be several in the second one,
and the other way round.  Still, the contents of twins correspond to each other part by part, and so
twins have the same form, and as keys the same hash.

## What is here

* `Heap.Twins` — plain data of which the same is written out.
* `Payload.Written.form_eq` and `Heap.Twins.form_eq` — they have the same form.
* `Heap.Twins.hash_eq` — they have the same hash.
* `Payload.Written.lifts` and `Heap.Twins.cases` — their contents correspond to each other, so they
  are counterparts in comparisons (`Heap.Twins.counterpart`).
-/

set_option autoImplicit false

namespace ValueHeap

open Filter

/-! ## What was written out twice -/

theorem forall₂_join {α β γ : Type} {R : α → γ → Prop} {S : β → γ → Prop} {T : α → β → Prop}
    {xs : List α} {ys : List β} {zs : List γ} (hxz : List.Forall₂ R xs zs)
    (hyz : List.Forall₂ S ys zs) (h : ∀ x y z, R x z → S y z → T x y) : List.Forall₂ T xs ys :=
  forall₂_of_left (fun z x y => h x y z) hxz.flip hyz.flip

namespace Payload

variable {h k : Heap} {s t : Slot} {p q : Payload} {R S : Value → Object → Prop} {o : Object}

/-- A value that takes a slot is not written out as one that takes none. -/
theorem Written.immediate?_eq (hp : p.Written R o) : o.immediate? = none := by
  cases hp <;> rfl

theorem Written.isPlain (hp : p.Written R o) : p.isPlain = true := by
  cases hp <;> rfl

/-- A range can be told from what is written out. -/
theorem Written.range_eq {r : Progression}
    (hq : q.Written S (.range r.start r.stop r.step)) : .range r = q := by
  generalize hstart : r.start = start, hstop : r.stop = stop, hstep : r.step = step at hq
  cases hq with
  | range r' =>
    cases r
    cases r'
    cases hstart
    cases hstop
    cases hstep
    rfl

/-- Contents of which the same is written out have the same label, and parts with the same forms. -/
theorem Written.form_eq {f g : Value → Form} (hp : p.Written R o) (hq : q.Written S o)
    (hfg : ∀ a b o, R a o → S b o → f a = g b) :
    h.labelOf s p = k.labelOf t q ∧ p.formParts f = q.formParts g := by
  cases hp with
  | str text => cases hq; exact ⟨rfl, rfl⟩
  | bytes data => cases hq; exact ⟨rfl, rfl⟩
  | longInt n => cases hq; exact ⟨rfl, rfl⟩
  | list hx =>
    cases hq with
    | list hy => exact ⟨rfl, map_eq_map_iff.2 (forall₂_join hx hy hfg)⟩
  | tuple hx =>
    cases hq with
    | tuple hy => exact ⟨rfl, map_eq_map_iff.2 (forall₂_join hx hy hfg)⟩
  | dict hx =>
    cases hq with
    | dict hy =>
      refine ⟨?_, congrArg Form.sort (map_eq_map_iff.2 (forall₂_join hx hy ?_))⟩
      · rw [Heap.labelOf, Heap.labelOf, hx.length_eq, hy.length_eq]
      · rintro e e' ⟨key, value⟩ ⟨hkey, hvalue⟩ ⟨hkey', hvalue'⟩
        rw [hfg _ _ _ hkey hkey', hfg _ _ _ hvalue hvalue']
  | set hx =>
    cases hq with
    | set hy =>
      exact ⟨rfl, congrArg Form.sort
        (map_eq_map_iff.2 (forall₂_join hx hy fun _ _ _ => hfg _ _ _))⟩
  | range r =>
    obtain rfl := hq.range_eq
    exact ⟨rfl, rfl⟩
  | slice ha hb hc =>
    cases hq with
    | slice ha' hb' hc' =>
      exact ⟨rfl, by rw [formParts, formParts, hfg _ _ _ ha ha', hfg _ _ _ hb hb',
        hfg _ _ _ hc hc']⟩

/-- **Contents of which the same is written out correspond to each other**, if keys of which the
same is written out have the same hash. -/
theorem Written.lifts {V : Value → Value → Prop} (hp : p.Written R o) (hq : q.Written S o)
    (hV : ∀ a b o, R a o → S b o → V a b) {P Q : HashedKey → Prop} (hP : ∀ key ∈ p.keys, P key)
    (hQ : ∀ key ∈ q.keys, Q key)
    (hhash : ∀ key key', P key → Q key' → V key.value key'.value → key.hash = key'.hash) :
    p.Lifts V q := by
  have hkey {key key' : HashedKey} {o : Object} (hp : P key ∧ R key.value o)
      (hq : Q key' ∧ S key'.value o) : key.Lifts V key' :=
    ⟨hV _ _ _ hp.2 hq.2, hhash key key' hp.1 hq.1 (hV _ _ _ hp.2 hq.2)⟩
  cases hp with
  | str text => cases hq; rfl
  | bytes data => cases hq; rfl
  | longInt n => cases hq; rfl
  | range r => exact hq.range_eq
  | list hx =>
    cases hq with
    | list hy => exact forall₂_join hx hy hV
  | tuple hx =>
    cases hq with
    | tuple hy => exact forall₂_join hx hy hV
  | set hx =>
    cases hq with
    | set hy =>
      exact forall₂_join ((List.forall₂_and_left _ _).2 ⟨hP, hx⟩)
        ((List.forall₂_and_left _ _).2 ⟨hQ, hy⟩) fun _ _ _ => hkey
  | dict hx =>
    cases hq with
    | dict hy =>
      rw [keys, List.forall_mem_map] at hP hQ
      refine forall₂_join ((List.forall₂_and_left _ _).2 ⟨hP, hx⟩)
        ((List.forall₂_and_left _ _).2 ⟨hQ, hy⟩) ?_
      rintro e e' pair ⟨hPe, hkey₁, hvalue₁⟩ ⟨hQe, hkey₂, hvalue₂⟩
      exact ⟨hkey ⟨hPe, hkey₁⟩ ⟨hQe, hkey₂⟩, hV _ _ _ hvalue₁ hvalue₂⟩
  | slice ha hb hc =>
    cases hq with
    | slice ha' hb' hc' => exact ⟨hV _ _ _ ha ha', hV _ _ _ hb hb', hV _ _ _ hc hc'⟩

end Payload

/-! ## Twins -/

namespace Heap

variable {h k : Heap} {a a' b b' : Value} {v : Value} {o : Object} {n : Nat}

/-- Two values are plain data, and the same object is written out of both. -/
def Twins (h k : Heap) (a b : Value) : Prop := ∃ o, h.Writes a o ∧ k.Writes b o

theorem Twins.symm (hab : h.Twins k a b) : k.Twins h b a := by
  obtain ⟨o, ha, hb⟩ := hab
  exact ⟨o, hb, ha⟩

theorem Twins.left (hab : h.Twins k a b) : h.PlainTree a := by
  obtain ⟨o, ha, -⟩ := hab
  exact ha.1

theorem Twins.right (hab : h.Twins k a b) : k.PlainTree b := hab.symm.left

/-- Plain data is written out as what it stands for, or its contents are. -/
theorem Writes.cases (hv : h.Writes v o) :
    o.immediate? = some v ∨
      ∃ s p, v = .ref s ∧ h.find? s = some p ∧ p.Written h.Writes o := by
  obtain ⟨htree, ho⟩ := hv
  cases htree with
  | @immediate v hv =>
    have himm : ∃ o : Object, o.immediate? = some v := by
      cases v with
      | none => exact ⟨.none, rfl⟩
      | ellipsis => exact ⟨.ellipsis, rfl⟩
      | bool b => exact ⟨.bool b, rfl⟩
      | int n => exact ⟨.int n, rfl⟩
      | float x => exact ⟨.float x, rfl⟩
      | builtin ty => exact ⟨.type ty, rfl⟩
      | ref s => cases hv
    obtain ⟨o', ho'⟩ := himm
    obtain rfl : o' = o :=
      Except.ok.inj ((snapshot_immediate ho').symm.trans ho)
    exact Or.inl ho'
  | @contents s p hp hplain hparts =>
    rw [PlainTree.snapshot_ref (.contents hp hplain hparts) hp] at ho
    exact Or.inr ⟨s, p, rfl, hp,
      written_of_objectOf hplain (fun x hx _ hox => ⟨hparts x hx, hox⟩) ho⟩

/-- Twins are one value without a slot, or the same is written out of their contents. -/
theorem Twins.written (hab : h.Twins k a b) :
    (a.slot? = none ∧ a = b) ∨ ∃ s t p q o, a = .ref s ∧ b = .ref t ∧ h.find? s = some p ∧
      k.find? t = some q ∧ p.Written h.Writes o ∧ q.Written k.Writes o := by
  obtain ⟨o, ha, hb⟩ := hab
  rcases ha.cases with ha | ⟨s, p, rfl, hp, hpo⟩ <;>
    rcases hb.cases with hb | ⟨t, q, rfl, hq, hqo⟩
  · exact Or.inl ⟨slot?_of_immediate ha, Option.some.inj (ha.symm.trans hb)⟩
  · rw [hqo.immediate?_eq] at ha
    cases ha
  · rw [hpo.immediate?_eq] at hb
    cases hb
  · exact Or.inr ⟨s, t, p, q, o, rfl, rfl, hp, hq, hpo, hqo⟩

/-- **Twins have the same form.** -/
theorem Twins.form_eq (hab : h.Twins k a b) (n : Nat) :
    h.form n a = k.form n b := by
  induction n generalizing a b with
  | zero =>
    rcases hab.written with ⟨hslot, rfl⟩ | ⟨s, t, p, q, o, rfl, rfl, hp, hq, hpo, hqo⟩
    · cases a with
      | ref s => cases hslot
      | _ => rfl
    · rw [form, form, label_ref hp, label_ref hq]
      have hlabel : h.labelOf s p = k.labelOf t q :=
        (hpo.form_eq hqo (f := fun _ => .node .absent []) (g := fun _ => .node .absent [])
          fun _ _ _ _ _ => rfl).1
      rw [hlabel]
  | succ n ih =>
    rcases hab.written with ⟨hslot, rfl⟩ | ⟨s, t, p, q, o, rfl, rfl, hp, hq, hpo, hqo⟩
    · cases a with
      | ref s => cases hslot
      | _ => rfl
    · obtain ⟨hlabel, hparts⟩ := hpo.form_eq (h := h) (k := k) (s := s) (t := t) hqo
        fun a b o ha hb => ih ⟨o, ha, hb⟩
      rw [form_ref hp, form_ref hq, hlabel, hparts]

/-- **Twins hash alike.** -/
theorem Twins.hash_eq {word word' : UInt64} (hab : h.Twins k a b) (ha : h.Hashes a word)
    (hb : k.Hashes b word') : word = word' :=
  (ha.of_form_eq (Eventually.of_forall (hab.form_eq))).unique hb

/-- Two values have the same form if twins of them do. -/
theorem Twins.alike_iff (ha : h.Twins k a a') (hb : h.Twins k b b') :
    h.Alike a b ↔ k.Alike a' b' := by
  simp only [Alike, ha.form_eq, hb.form_eq]

/-- **Twins are one value without a slot, or their contents correspond to each other** part by
part. -/
theorem Twins.cases (hc : h.Coherent) (hk : k.Coherent) (hab : h.Twins k a b) :
    (a.slot? = none ∧ a = b) ∨ ∃ s t p q, a = .ref s ∧ b = .ref t ∧ h.find? s = some p ∧
      k.find? t = some q ∧ p.isPlain = true ∧ p.Lifts (h.Twins k) q := by
  refine (hab.written).imp_right ?_
  rintro ⟨s, t, p, q, o, rfl, rfl, hp, hq, hpo, hqo⟩
  refine ⟨s, t, p, q, rfl, rfl, hp, hq, hpo.isPlain, ?_⟩
  refine hpo.lifts hqo (fun a b o ha hb => ⟨o, ha, hb⟩) (hc.fits s p hp).keys.hashes
    (hk.fits t q hq).keys.hashes ?_
  exact fun key key' hkey hkey' hab => hab.hash_eq hkey hkey'

/-- Twins are of the same type, which is a builtin one. -/
theorem Twins.exists_typeOf (hc : h.Coherent) (hk : k.Coherent) (hab : h.Twins k a b) :
    ∃ ty, h.typeOf a = .ok (.builtin ty) ∧ k.typeOf b = .ok (.builtin ty) := by
  rcases hab.cases hc hk with ⟨hslot, rfl⟩ | ⟨s, t, p, q, rfl, rfl, hp, hq, hplain, hpq⟩
  · cases a with
    | ref s => cases hslot
    | _ => exact ⟨_, rfl, rfl⟩
  · rw [typeOf_ref hp, typeOf_ref hq, ← hpq.typeRef_eq]
    cases p <;> first | exact ⟨_, rfl, rfl⟩ | cases hplain

/-- Twins are read as contents that correspond to each other. -/
theorem Twins.counterpart {l : Leeway} {m n : Nat} (hc : h.Coherent) (hk : k.Coherent)
    (hab : h.Twins k a b) : Compare.Counterpart l (h.Twins k) h n k m a b := by
  rcases hab.cases hc hk with ⟨hslot, rfl⟩ | ⟨s, t, p, q, rfl, rfl, hp, hq, hplain, hpq⟩
  · exact .immediate hslot
  · refine .slot (.look (read_eq_ok_iff.2 hp) (read_eq_ok_iff.2 hq) ⟨hpq, fun hnominal => ?_⟩)
    rw [Payload.isNominal_eq_false hplain] at hnominal
    cases hnominal

end Heap

end ValueHeap
