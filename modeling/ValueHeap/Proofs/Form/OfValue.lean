import Mathlib.Data.List.Basic
import ValueHeap.Compare.Rich
import ValueHeap.Proofs.Form.Basic
import ValueHeap.Proofs.Numeric.Units

/-!
# The form of a value

A value in a heap unfolds to a tree, down to a depth that is given, since a list may contain itself.
What becomes of each value is what comparison sees of it.

A label stands on one of three shelves.  `None` comes first and the numbers next, written by their
digits whatever type they have.  Everything else follows under the name of its type, with the type
and whatever tells its values apart without a look at their parts.

## What is here

* `Progression.digits` — what a range is compared by.
* `Heap.label` — the label of a value, and `Payload.formParts` — the forms of the parts of contents,
  given those of values.  Entries of a dict and elements of a set are sorted.
* `Heap.form` — the form of a value, down to a depth.
* `Heap.label_cases` — the three shelves, told apart by what comparison asks first: whether a value
  is a number, and of what type it is.
-/

set_option autoImplicit false

namespace ValueHeap

open Std

/-! ## What leaves are compared by -/

/-- What a range is compared by: its start if it has a term, and its step and its length if it has
a second one. -/
def Progression.digits (p : Progression) : List Int :=
  if p.length = 0 then []
  else if p.length = 1 then [p.start.toInt]
  else [p.start.toInt, p.step.toInt, p.length]

theorem int64_compare_eq_of_ne {m n : Int64} (h : m ≠ n) (o : Ordering) :
    (compare m.toInt n.toInt).then o = compare m.toInt n.toInt := by
  have hne : compare m.toInt n.toInt ≠ .eq := fun heq =>
    h (Int64.toInt_inj.1 (LawfulEqCmp.eq_of_compare heq))
  cases hc : compare m.toInt n.toInt with
  | eq => exact absurd hc hne
  | lt => rfl
  | gt => rfl

/-- Ranges compare as their digits do. -/
theorem Progression.order_eq_compare_digits (p q : Progression) :
    p.order q = compare p.digits q.digits := by
  have hnat (m n : Nat) : compare (m : Int) n = compare m n := by
    simp only [compare, compareOfLessAndEq, Int.ofNat_lt, Int.ofNat_inj]
  rcases hp : p.length with _ | _ | m <;> rcases hq : q.length with _ | _ | n
  all_goals
    simp only [order, digits, hp, hq]
  · rfl
  · rfl
  · rfl
  · rfl
  · by_cases hs : p.start = q.start
    · simp [hs]
    · simp [hs, List.compare_cons_cons]
  · by_cases hs : p.start = q.start
    · simp [hs, List.compare_cons_cons]
      exact Nat.compare_eq_lt.2 (by omega)
    · simp [hs, List.compare_cons_cons, int64_compare_eq_of_ne hs]
  · rfl
  · by_cases hs : p.start = q.start
    · simp [hs, List.compare_cons_cons]
      exact Nat.compare_eq_gt.2 (by omega)
    · simp [hs, List.compare_cons_cons, int64_compare_eq_of_ne hs]
  · by_cases hs : p.start = q.start
    · by_cases ht : p.step = q.step
      · simp [hs, ht, List.compare_cons_cons, ← hnat]
      · simp [hs, ht, List.compare_cons_cons, int64_compare_eq_of_ne ht]
    · simp [hs, List.compare_cons_cons, int64_compare_eq_of_ne hs]

/-- The slot of a value, or zero. -/
def Value.tag (v : Value) : Nat := v.slot?.getD 0

/-- What tells a type from the others. -/
def TypeRef.digits : TypeRef → List Int
  | builtin ty => [0, ty.rank]
  | userClass s => [1, s]

theorem TypeRef.digits_append_inj {s t : TypeRef} {xs ys : List Int}
    (h : s.digits ++ xs = t.digits ++ ys) : s = t ∧ xs = ys := by
  cases s <;> cases t <;> simp [digits] at h ⊢
  · exact ⟨BuiltinType.rank_inj h.1, h.2⟩
  · exact h

/-! ## Labels of values -/

namespace Form.Label

/-- The label of `None`. -/
def absent : Label := ⟨0, "", [], ""⟩

/-- The label of a number.  The tag only matters for a complex number with a NaN in it. -/
def number (tag : Nat) (n : Number) : Label := ⟨1, "", n.digits tag, ""⟩

/-- The label of a value of a builtin type that is not compared as a number. -/
def typed (ty : BuiltinType) (content : List Int) (text : String) : Label :=
  ⟨2, ty.name, (TypeRef.builtin ty).digits ++ content, text⟩

/-- The label of an instance, under the name of its class. -/
def instance_ (className : String) (cls s : Slot) : Label :=
  ⟨2, className, (TypeRef.userClass cls).digits ++ [(s : Int)], ""⟩

/-- The label of a reference to an empty slot. -/
def dangling : Label := ⟨3, "", [], ""⟩

end Form.Label

namespace Heap

open Form (Label)

/-- The name of the class in a slot. -/
def className (h : Heap) (cls : Slot) : String :=
  match h.find? cls with
  | some (.userClass name _) => name
  | _ => ""

/-- The label of contents in a slot. -/
def labelOf (h : Heap) (s : Slot) : Payload → Label
  | .str text => .typed .str [] text
  | .bytes data => .typed .bytes (data.map fun b => (b.toNat : Int)) ""
  | .longInt n => .number s (.int n)
  | .complex re im => .number s (.complex re im)
  | .list _ => .typed .list [] ""
  | .tuple _ => .typed .tuple [] ""
  | .dict entries => .typed .dict [(entries.length : Int)] ""
  | .set _ => .typed .set [] ""
  | .range p => .typed .range p.digits ""
  | .slice .. => .typed .slice [] ""
  | .userClass .. => .typed .type (TypeRef.userClass s).digits ""
  | .userInstance cls => .instance_ (h.className cls) cls s

/-- The label of a value. -/
def label (h : Heap) : Value → Label
  | .none => .absent
  | .ellipsis => .typed .ellipsis [] ""
  | .bool b => .number 0 (.int (if b then 1 else 0))
  | .int n => .number 0 (.int n.toInt)
  | .float x => .number 0 (.float x)
  | .builtin ty => .typed .type (TypeRef.builtin ty).digits ""
  | .ref s => ((h.find? s).map (h.labelOf s)).getD .dangling

end Heap

/-! ## Forms of values -/

/-- The form of an entry of a dict. -/
def Form.pair (key value : Form) : Form := .node ⟨0, "", [], ""⟩ [key, value]

/-- The forms of the parts of contents, from those of values. -/
def Payload.formParts (form : Value → Form) : Payload → List Form
  | list items => items.map form
  | tuple items => items.map form
  | dict entries => Form.sort (entries.map fun e => .pair (form e.key.value) (form e.value))
  | set elements => Form.sort (elements.map fun e => form e.value)
  | slice start stop step => [form start, form stop, form step]
  | _ => []

namespace Heap

/-- The form of a value, down to a depth.  Nothing is left of the parts below it. -/
def form (h : Heap) : Nat → Value → Form
  | 0, v => .node (h.label v) []
  | depth + 1, v =>
    .node (h.label v)
      (match v with
      | .ref s => ((h.find? s).map (Payload.formParts (h.form depth))).getD []
      | _ => [])

theorem form_ref {h : Heap} {s : Slot} {p : Payload} (hp : h.find? s = some p) (depth : Nat) :
    h.form (depth + 1) (.ref s) = .node (h.labelOf s p) (p.formParts (h.form depth)) := by
  rw [form, label, hp]
  rfl

theorem label_ref {h : Heap} {s : Slot} {p : Payload} (hp : h.find? s = some p) :
    h.label (.ref s) = h.labelOf s p := by
  rw [label, hp]
  rfl

theorem typeOf_ref {h : Heap} {s : Slot} {p : Payload} (hp : h.find? s = some p) :
    h.typeOf (.ref s) = .ok p.typeRef := by
  rw [typeOf, read_eq_ok_iff.2 hp]
  rfl

theorem form_eq_node (h : Heap) (depth : Nat) (v : Value) :
    ∃ parts, h.form depth v = .node (h.label v) parts := by
  cases depth with
  | zero => exact ⟨[], rfl⟩
  | succ depth => exact ⟨_, rfl⟩

theorem label_eq_of_form_eq {h k : Heap} {m n : Nat} {a b : Value}
    (hab : h.form m a = k.form n b) : h.label a = k.label b := by
  obtain ⟨xs, hx⟩ := h.form_eq_node m a
  obtain ⟨ys, hy⟩ := k.form_eq_node n b
  rw [hx, hy, Form.node.injEq] at hab
  exact hab.1

/-- Forms with different labels compare as these do. -/
theorem compare_form_of_label_ne {h : Heap} {a b : Value} (hab : h.label a ≠ h.label b) (n : Nat) :
    compare (h.form n a) (h.form n b) = (h.label a).order (h.label b) := by
  obtain ⟨xs, hx⟩ := h.form_eq_node n a
  obtain ⟨ys, hy⟩ := h.form_eq_node n b
  rw [hx, hy, Form.compare_node_of_ne hab]

/-! ## The shelves -/

/-- The three shelves on which the label of a value may stand. -/
inductive Shelved (h : Heap) (v : Value) : Prop where
  | absent (hv : v = .none) (hl : h.label v = .absent)
  | number (n : Number) (ty : TypeRef) (hn : Compare.numberOf h v = .ok (some n))
      (hty : h.typeOf v = .ok ty) (hnum : ty.isNumeric = true) (hl : h.label v = .number v.tag n)
  | typed (ty : TypeRef) (name : String) (content : List Int) (text : String)
      (hty : h.typeOf v = .ok ty) (hnum : ty.isNumeric = false) (hne : ty ≠ .builtin .noneType)
      (hn : Compare.numberOf h v = .ok none)
      (hname : ∀ found, h.nameOfType ty = .ok found → found = name)
      (hl : h.label v = ⟨2, name, ty.digits ++ content, text⟩)

theorem nameOfType_eq_className {h : Heap} {cls : Slot} {found : String}
    (hf : h.nameOfType (.userClass cls) = .ok found) : found = h.className cls := by
  rw [nameOfType] at hf
  split at hf
  · next name base hr =>
    rw [className, read_eq_ok_iff.1 hr]
    exact (Except.ok.inj hf).symm
  · cases hf
  · cases hf

/-- Every value whose slot is in use stands on one of the shelves. -/
theorem label_cases {h : Heap} {v : Value} (hv : ∀ s, v = .ref s → (h.find? s).isSome) :
    h.Shelved v := by
  have hbuiltin (ty : BuiltinType) (found : String)
      (hf : h.nameOfType (.builtin ty) = .ok found) : found = ty.name :=
    (Except.ok.inj hf).symm
  cases v with
  | none => exact .absent rfl rfl
  | ellipsis =>
    exact .typed (.builtin .ellipsis) _ [] "" rfl rfl (by decide) rfl (hbuiltin _) rfl
  | bool b => exact .number _ _ rfl rfl rfl rfl
  | int n => exact .number _ _ rfl rfl rfl rfl
  | float x => exact .number _ _ rfl rfl rfl rfl
  | builtin ty =>
    exact .typed (.builtin .type) _ (TypeRef.builtin ty).digits "" rfl rfl (by decide) rfl
      (hbuiltin _) rfl
  | ref s =>
    obtain ⟨p, hp⟩ := Option.isSome_iff_exists.1 (hv s rfl)
    have hr : h.read s = .ok p := read_eq_ok_iff.2 hp
    have hty := typeOf_ref hp
    have hl := label_ref hp
    cases p with
    | longInt n => exact .number (.int n) _ (by rw [Compare.numberOf, hr]; rfl) hty rfl hl
    | complex re im =>
      exact .number (.complex re im) _ (by rw [Compare.numberOf, hr]; rfl) hty rfl hl
    | userInstance cls =>
      exact .typed _ _ _ _ hty rfl (by simp [Payload.typeRef])
        (by rw [Compare.numberOf, hr]; rfl) (fun _ => nameOfType_eq_className) hl
    | _ =>
      exact .typed _ _ _ _ hty rfl (by simp [Payload.typeRef])
        (by rw [Compare.numberOf, hr]; rfl) (hbuiltin _) hl

end Heap

/-! ## Values with the same label -/

/-- Contents of the same kind, which is neither a number nor equal to itself only. -/
inductive Payload.SameKind : Payload → Payload → Prop
  | str (x y : String) : SameKind (str x) (str y)
  | bytes (x y : List UInt8) : SameKind (bytes x) (bytes y)
  | list (xs ys : List Value) : SameKind (list xs) (list ys)
  | tuple (xs ys : List Value) : SameKind (tuple xs) (tuple ys)
  | dict (xs ys : List Entry) : SameKind (dict xs) (dict ys)
  | set (xs ys : List HashedKey) : SameKind (set xs) (set ys)
  | range (x y : Progression) : SameKind (range x) (range y)
  | slice (a b c d e f : Value) : SameKind (slice a b c) (slice d e f)

/-- Whether contents are equal to themselves only. -/
def Payload.isNominal : Payload → Bool
  | userClass .. | userInstance _ => true
  | _ => false

theorem Payload.sameKind_of_typeRef {p q : Payload} (h : p.typeRef = q.typeRef)
    (hnum : p.typeRef.isNumeric = false) :
    p.SameKind q ∨ (p.isNominal = true ∧ q.isNominal = true) := by
  cases p <;> cases q <;> simp [typeRef] at h
  all_goals first
    | exact Or.inl (by constructor)
    | exact Or.inr ⟨rfl, rfl⟩
    | simp [typeRef, TypeRef.isNumeric, BuiltinType.isNumeric] at hnum

namespace Heap

/-- Whether the slot of a value is in use, if it has one. -/
def Names (h : Heap) (v : Value) : Prop := ∀ s, v = .ref s → (h.find? s).isSome

/-- The ways in which two values, each in a heap of its own, can have the same label. -/
inductive Matched (h k : Heap) : Value → Value → Prop
  | number {a b : Value} {m n : Number} (hm : Compare.numberOf h a = .ok (some m))
      (hn : Compare.numberOf k b = .ok (some n)) (hd : m.digits a.tag = n.digits b.tag) :
      Matched h k a b
  | immediate {a : Value} (ha : a = .none ∨ a = .ellipsis ∨ ∃ ty, a = .builtin ty) :
      Matched h k a a
  | nominal {s : Slot} {p q : Payload} (hp : h.find? s = some p) (hq : k.find? s = some q)
      (hpn : p.isNominal = true) (hqn : q.isNominal = true) : Matched h k (.ref s) (.ref s)
  | contents {s t : Slot} {p q : Payload} (hp : h.find? s = some p) (hq : k.find? t = some q)
      (hk : p.SameKind q) (hl : h.labelOf s p = k.labelOf t q) : Matched h k (.ref s) (.ref t)

theorem matched_refs {h k : Heap} {s t : Slot} {p q : Payload} (hp : h.find? s = some p)
    (hq : k.find? t = some q) (hl : h.labelOf s p = k.labelOf t q)
    (hty : p.typeRef = q.typeRef) (hnum : p.typeRef.isNumeric = false) :
    Matched h k (.ref s) (.ref t) := by
  rcases Payload.sameKind_of_typeRef hty hnum with hkind | ⟨hpn, hqn⟩
  · exact .contents hp hq hkind hl
  · have hst : s = t := by
      cases p <;> simp [Payload.isNominal] at hpn <;> cases q <;>
        simp [Payload.isNominal] at hqn <;>
        simp [labelOf, Form.Label.typed, Form.Label.instance_, TypeRef.digits] at hl
      · exact hl
      · exact hl.2.2
    subst hst
    exact .nominal hp hq hpn hqn

theorem matched_of_typeOf {h k : Heap} {a b : Value} {ty : TypeRef} (ha : h.Names a)
    (hb : k.Names b) (hta : h.typeOf a = .ok ty) (htb : k.typeOf b = .ok ty)
    (hnum : ty.isNumeric = false) (hne : ty ≠ .builtin .noneType) (hl : h.label a = k.label b) :
    Matched h k a b := by
  have hnot {t : Slot} {q : Payload} (hq : k.find? t = some q)
      (htb : k.typeOf (.ref t) = .ok (.builtin .ellipsis)) : False := by
    rw [typeOf_ref hq] at htb
    cases q <;> cases htb
  cases a with
  | none => exact absurd (Except.ok.inj hta).symm hne
  | bool => cases hta; simp [TypeRef.isNumeric, BuiltinType.isNumeric] at hnum
  | int => cases hta; simp [TypeRef.isNumeric, BuiltinType.isNumeric] at hnum
  | float => cases hta; simp [TypeRef.isNumeric, BuiltinType.isNumeric] at hnum
  | ellipsis =>
    cases hta
    cases b with
    | ellipsis => exact .immediate (Or.inr (Or.inl rfl))
    | ref t =>
      obtain ⟨q, hq⟩ := Option.isSome_iff_exists.1 (hb t rfl)
      exact (hnot hq htb).elim
    | _ => cases htb
  | builtin ty =>
    cases hta
    cases b with
    | builtin ty' =>
      have hrank : ty = ty' := by
        simp only [label, Form.Label.typed, Form.Label.mk.injEq, List.append_cancel_left_eq] at hl
        have hdigits : (TypeRef.builtin ty).digits = (TypeRef.builtin ty').digits := hl.2.2.1
        rw [← List.append_nil (TypeRef.builtin ty).digits,
          ← List.append_nil (TypeRef.builtin ty').digits] at hdigits
        exact TypeRef.builtin.inj (TypeRef.digits_append_inj hdigits).1
      subst hrank
      exact .immediate (Or.inr (Or.inr ⟨ty, rfl⟩))
    | ref t =>
      obtain ⟨q, hq⟩ := Option.isSome_iff_exists.1 (hb t rfl)
      rw [typeOf_ref hq] at htb
      rw [label_ref hq] at hl
      cases q <;> cases htb
      simp [label, labelOf, Form.Label.typed, TypeRef.digits] at hl
    | _ => cases htb
  | ref s =>
    obtain ⟨p, hp⟩ := Option.isSome_iff_exists.1 (ha s rfl)
    rw [typeOf_ref hp] at hta
    rw [label_ref hp] at hl
    cases hta
    cases b with
    | ref t =>
      obtain ⟨q, hq⟩ := Option.isSome_iff_exists.1 (hb t rfl)
      rw [typeOf_ref hq] at htb
      rw [label_ref hq] at hl
      exact matched_refs hp hq hl (Except.ok.inj htb).symm hnum
    | builtin ty =>
      cases p <;> cases htb
      simp [label, labelOf, Form.Label.typed, TypeRef.digits] at hl
    | none => exact absurd (Except.ok.inj htb).symm hne
    | ellipsis => cases p <;> cases htb
    | _ =>
      rw [← Except.ok.inj htb] at hnum
      simp [TypeRef.isNumeric, BuiltinType.isNumeric] at hnum

/-- Values with the same label are matched. -/
theorem matched_of_label_eq {h k : Heap} {a b : Value} (ha : h.Names a) (hb : k.Names b)
    (hl : h.label a = k.label b) : Matched h k a b := by
  rcases h.label_cases ha with ⟨rfl, hla⟩ | ⟨m, _, hm, -, -, hla⟩ |
      ⟨ty, _, _, _, hty, hnum, hne, -, -, hla⟩ <;>
    rcases k.label_cases hb with ⟨rfl, hlb⟩ | ⟨n, _, hn, -, -, hlb⟩ |
      ⟨ty', _, _, _, hty', -, -, -, -, hlb⟩ <;>
    rw [hla, hlb] at hl <;>
    have hshelf := congrArg Form.Label.shelf hl <;>
    simp [Form.Label.absent, Form.Label.number] at hshelf
  · exact .immediate (Or.inl rfl)
  · exact .number hm hn (congrArg Form.Label.digits hl)
  · have hsame : ty = ty' := by
      rw [Form.Label.mk.injEq] at hl
      exact (TypeRef.digits_append_inj hl.2.2.1).1
    subst hsame
    rw [← hla, ← hlb] at hl
    exact matched_of_typeOf ha hb hty hty' hnum hne hl

end Heap

end ValueHeap
