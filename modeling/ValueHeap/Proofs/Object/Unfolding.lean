import ValueHeap.Proofs.Object.Written

/-!
# Snapshots are unfoldings

A value in a heap unfolds to a tree, and the tree is infinite where the value contains itself.  A
snapshot is this tree cut off: a reference back to a slot on the way down to it becomes a stand-in,
and everything else is written out with all its parts, however often it was met elsewhere.

Places in the tree are told by the ways to them, lists of the numbers of the parts that lead there.
Said so, nothing depends on the order in which the tree is written: a way passes certain slots, and
these alone decide what stands at its end.

## What is here

* `Object.at?` — what stands at a place of an object.
* `Heap.descend` — the slots that a way through a heap passes, and the value at its end.
* `Heap.Shows` — what is to stand at the end of a way, and `Heap.Unfolds` — an object with this at
  every place.
* `Heap.Unfolds.rel_parts` and `Heap.Unfolds.of_parts` — an unfolding is made of the unfoldings of
  the parts.
* `Heap.Unfolds.of_snapshotFrom` and `Heap.Unfolds.eq_of_snapshotFrom` — **what is written is the
  unfolding**, and there is no other.
* `Heap.Unfolds.of_avoids` — slots on the way that do not occur in a value make no difference to it.
-/

set_option autoImplicit false

namespace ValueHeap

/-! ## Places of objects -/

namespace Object

/-- The objects that an object is made of, the keys of a dict in front of the values under them. -/
def parts : Object → List Object
  | list items => items
  | tuple items => items
  | dict pairs => pairs.flatMap pairParts
  | set elements => elements
  | slice start stop step => [start, stop, step]
  | _ => []

/-- What stands at the end of a way, where `i` leads to the part with that number. -/
def at? : List Nat → Object → Option Object
  | [], o => some o
  | i :: way, o => o.parts[i]?.bind (at? way)

/-- The object stands for a reference back. -/
def IsPlaceholder (o : Object) : Prop :=
  ∃ text ∈ ["[...]", "(...)", "\x7b...\x7d", "..."], o = .standIn text

variable {o u : Object} {i : Nat} {way : List Nat}

theorem at?_cons_eq_some :
    at? (i :: way) o = some u ↔ ∃ part, o.parts[i]? = some part ∧ part.at? way = some u := by
  rw [at?, Option.bind_eq_some_iff]

theorem at?_cons (hi : o.parts[i]? = some u) : o.at? (i :: way) = u.at? way := by
  rw [at?, hi, Option.bind_some]

theorem isPlaceholder_placeholder (p : Payload) : (placeholder p).IsPlaceholder := by
  cases p <;> exact ⟨_, by decide, rfl⟩

theorem parts_placeholder (p : Payload) : (placeholder p).parts = [] := by
  cases p <;> rfl

theorem parts_of_immediate {v : Value} (hv : o.immediate? = some v) : o.parts = [] := by
  cases o <;> first | rfl | cases hv

theorem flatMap_pairParts_inj {pairs pairs' : List (Object × Object)}
    (heq : pairs.flatMap pairParts = pairs'.flatMap pairParts) : pairs = pairs' := by
  induction pairs generalizing pairs' with
  | nil =>
    cases pairs' with
    | nil => rfl
    | cons pair pairs' => cases heq
  | cons pair pairs ih =>
    cases pairs' with
    | nil => cases heq
    | cons pair' pairs' =>
      obtain ⟨hkey, hvalue, hrest⟩ : pair.1 = pair'.1 ∧ pair.2 = pair'.2 ∧
          pairs.flatMap pairParts = pairs'.flatMap pairParts := by
        simpa [pairParts] using heq
      rw [Prod.ext hkey hvalue, ih hrest]

end Object

/-! ## Parts one by one -/

theorem rel_getElem? {α β : Type} {R : α → β → Prop} {xs : List α} {ys : List β}
    (hR : List.Forall₂ R xs ys) (i : Nat) : Option.Rel R xs[i]? ys[i]? := by
  induction hR generalizing i with
  | nil => exact .none
  | cons hxy _ ih =>
    cases i with
    | zero => exact .some hxy
    | succ i => exact ih i

theorem exists_of_some_rel {α β : Type} {R : α → β → Prop} {x : α} {b : Option β}
    (hR : Option.Rel R (some x) b) : ∃ y, b = some y ∧ R x y := by
  cases hR with
  | some hxy => exact ⟨_, rfl, hxy⟩

theorem exists_of_rel_some {α β : Type} {R : α → β → Prop} {a : Option α} {y : β}
    (hR : Option.Rel R a (some y)) : ∃ x, a = some x ∧ R x y := by
  cases hR with
  | some hxy => exact ⟨_, rfl, hxy⟩

theorem eq_of_rel {α β : Type} {R S : α → β → Prop} {a : Option α} {b c : Option β}
    (hb : Option.Rel R a b) (hc : Option.Rel S a c) (hRS : ∀ x y z, R x y → S x z → y = z) :
    b = c := by
  cases hb with
  | none =>
    cases hc
    rfl
  | some hb =>
    cases hc with
    | some hc => rw [hRS _ _ _ hb hc]

/-! ## Contents and objects of their kind -/

/-- The parts of contents and of what is written out of them, one by one. -/
theorem Payload.Written.parts {R : Value → Object → Prop} {p : Payload} {o : Object}
    (ho : p.Written R o) : List.Forall₂ R p.parts o.parts := by
  cases ho with
  | list hparts => exact hparts
  | tuple hparts => exact hparts
  | set hparts => exact List.forall₂_map_left_iff.2 hparts
  | dict hparts =>
    exact List.rel_flatMap hparts fun _ _ hpair => .cons hpair.1 (.cons hpair.2 .nil)
  | slice ha hb hc => exact .cons ha (.cons hb (.cons hc .nil))
  | _ => exact .nil

namespace Heap

/-- Contents with an object of their kind: the data is the same, and there are as many parts. -/
inductive Renders (h : Heap) : Payload → Object → Prop
  | plain {p : Payload} {o : Object} (ho : p.Written (fun _ _ => True) o) : Renders h p o
  | complex (re im : Binary64) : Renders h (.complex re im) (.complex re im)
  | userClass (name : String) (base : Option Slot) :
      Renders h (.userClass name base) (.standIn s!"<class '{name}'>")
  | userInstance {cls : Slot} {name : String} (hname : h.nameOfType (.userClass cls) = .ok name) :
      Renders h (.userInstance cls) (.standIn s!"<{name} object>")

variable {h : Heap} {p : Payload} {o o' : Object}

namespace Renders

/-- The stand-ins for classes and for instances start with another character. -/
theorem not_isPlaceholder (ho : h.Renders p o) : ¬o.IsPlaceholder := by
  have hfirst : ∀ text ∈ ["[...]", "(...)", "\x7b...\x7d", "..."],
      text.toList.head? ≠ some '<' := by decide
  rintro ⟨text, htext, rfl⟩
  refine hfirst text htext ?_
  cases ho with
  | plain ho => cases ho
  | _ => simp only [String.toList_append]; rfl

/-- Contents and parts determine the object. -/
theorem eq (ho : h.Renders p o) (ho' : h.Renders p o') (hparts : o.parts = o'.parts) : o = o' := by
  cases ho with
  | plain ho =>
    cases ho' with
    | plain ho' =>
      cases ho <;> cases ho' <;> first
        | rfl
        | exact congrArg _ hparts
        | exact congrArg _ (Object.flatMap_pairParts_inj hparts)
        | simpa [Object.parts] using hparts
    | _ => cases ho
  | complex =>
    cases ho' with
    | plain ho' => cases ho'
    | complex => rfl
  | userClass =>
    cases ho' with
    | plain ho' => cases ho'
    | userClass => rfl
  | userInstance hname =>
    cases ho' with
    | plain ho' => cases ho'
    | userInstance hname' => rw [Except.ok.inj (hname.symm.trans hname')]

end Renders

/-! ## Ways through a heap -/

/-- The slots that a way passes, the last one in front of those in `path`, and the value at its
end. -/
def descend (h : Heap) : List Nat → List Slot → Value → Option (List Slot × Value)
  | [], path, v => some (path, v)
  | i :: way, path, .ref s => do
    let p ← h.find? s
    let x ← p.parts[i]?
    h.descend way (s :: path) x
  | _ :: _, _, _ => none

variable {path path' : List Slot} {v w x : Value} {u : Object} {s : Slot} {n : Nat}
  {way : List Nat} {i : Nat}

theorem descend_cons_eq_some {r : List Slot × Value} :
    h.descend (i :: way) path v = some r ↔ ∃ s p x, v = .ref s ∧ h.find? s = some p ∧
      p.parts[i]? = some x ∧ h.descend way (s :: path) x = some r := by
  cases v with
  | ref s =>
    simp only [descend, Option.bind_eq_bind, Option.bind_eq_some_iff, Value.ref.injEq]
    constructor
    · rintro ⟨p, hp, x, hx, hr⟩
      exact ⟨s, p, x, rfl, hp, hx, hr⟩
    · rintro ⟨_, p, x, rfl, hp, hx, hr⟩
      exact ⟨p, hp, x, hx, hr⟩
  | _ => simp [descend]

theorem descend_cons (hp : h.find? s = some p) (hx : p.parts[i]? = some x) :
    h.descend (i :: way) path (.ref s) = h.descend way (s :: path) x := by
  rw [descend, hp, Option.bind_eq_bind, Option.bind_some, hx]
  rfl

/-- The slots that were passed before stay where they are. -/
theorem descend_append (way : List Nat) (path path' : List Slot) (v : Value) :
    h.descend way (path ++ path') v =
      (h.descend way path v).map fun r => (r.1 ++ path', r.2) := by
  induction way generalizing path v with
  | nil => rfl
  | cons i way ih =>
    cases v with
    | ref s =>
      simp only [descend, Option.bind_eq_bind, Option.map_bind, ← List.cons_append, ih]
      exact congrArg _ (funext fun p => (Option.map_bind).symm)
    | _ => rfl

/-- The slots that a way passes come on top of those that were passed before. -/
theorem exists_append_of_descend (hd : h.descend way path v = some (path', w)) :
    ∃ passed, path' = passed ++ path ∧ h.descend way [] v = some (passed, w) := by
  rw [← List.nil_append path, descend_append, Option.map_eq_some_iff] at hd
  obtain ⟨r, hr, heq⟩ := hd
  cases heq
  exact ⟨r.1, rfl, hr⟩

/-- What a way leads to occurs in the value, and in a part of each slot that the way passes. -/
theorem occurs_of_descend (hd : h.descend way path v = some (path', w)) :
    h.Occurs w v ∧ ∀ s ∈ path', s ∈ path ∨
      h.Occurs (.ref s) v ∧ ∃ p x, h.find? s = some p ∧ x ∈ p.parts ∧ h.Occurs w x := by
  induction way generalizing path v with
  | nil =>
    cases hd
    exact ⟨.self, fun s hs => Or.inl hs⟩
  | cons i way ih =>
    obtain ⟨t, p, x, rfl, hp, hx, hd⟩ := descend_cons_eq_some.1 hd
    have hmem := List.mem_of_getElem? hx
    obtain ⟨hocc, hpath⟩ := ih hd
    refine ⟨.part hp hmem hocc, fun s hs => ?_⟩
    rcases hpath s hs with hs | ⟨hs, hbelow⟩
    · rcases List.mem_cons.1 hs with rfl | hs
      · exact Or.inr ⟨.self, p, x, hp, hmem, hocc⟩
      · exact Or.inl hs
    · exact Or.inr ⟨.part hp hmem hs, hbelow⟩

/-! ## Unfoldings -/

/-- What stands for a value at the end of a way that has passed the slots `path`: a stand-in for a
reference back to one of them, and otherwise the value itself. -/
inductive Shows (h : Heap) (path : List Slot) : Value → Object → Prop
  | immediate {v : Value} {o : Object} (hv : o.immediate? = some v) : Shows h path v o
  | back {s : Slot} {p : Payload} (hp : h.find? s = some p) (hs : s ∈ path) :
      Shows h path (.ref s) (.placeholder p)
  | contents {s : Slot} {p : Payload} {o : Object} (hp : h.find? s = some p) (hs : s ∉ path)
      (ho : h.Renders p o) : Shows h path (.ref s) o

/-- The object is the unfolding of a value that is reached by way of the slots `path`. -/
structure Unfolds (h : Heap) (path : List Slot) (v : Value) (o : Object) : Prop where
  /-- Its places are the ways that pass no slot twice. -/
  places : ∀ way path' w, h.descend way path v = some (path', w) →
    ((o.at? way).isSome ↔ path'.Nodup)
  /-- Every place shows what the way leads to. -/
  shows : ∀ way u, o.at? way = some u →
    ∃ path' w, h.descend way path v = some (path', w) ∧ h.Shows path' w u

/-- A stand-in for a reference is written exactly for a reference back to a slot on the way. -/
theorem Shows.isPlaceholder_iff (hu : h.Shows path v u) :
    u.IsPlaceholder ↔ ∃ s ∈ path, v = .ref s := by
  cases hu with
  | immediate hv =>
    refine iff_of_false ?_ ?_
    · rintro ⟨text, -, rfl⟩
      cases hv
    · rintro ⟨s, -, rfl⟩
      cases slot?_of_immediate hv
  | back hp hs => exact iff_of_true (Object.isPlaceholder_placeholder _) ⟨_, hs, rfl⟩
  | contents hp hs ho =>
    refine iff_of_false ho.not_isPlaceholder ?_
    rintro ⟨t, ht, heq⟩
    cases heq
    exact hs ht

/-- Only what is written out has parts. -/
theorem Shows.exists_of_part (ho : h.Shows path v o) (hu : o.parts[i]? = some u) :
    ∃ s p, v = .ref s ∧ h.find? s = some p ∧ s ∉ path := by
  cases ho with
  | immediate hv =>
    rw [Object.parts_of_immediate hv] at hu
    cases hu
  | back =>
    rw [Object.parts_placeholder] at hu
    cases hu
  | contents hp hs => exact ⟨_, _, rfl, hp, hs⟩

/-- The parts of what is written out determine what stands there. -/
theorem Shows.eq (ho : h.Shows path v o) (ho' : h.Shows path v o')
    (hparts : ∀ s p, v = .ref s → h.find? s = some p → s ∉ path → o.parts = o'.parts) :
    o = o' := by
  cases ho with
  | immediate hv =>
    cases ho' with
    | immediate hv' => exact Object.immediate?_inj hv hv'
    | _ => cases slot?_of_immediate hv
  | back hp hs =>
    cases ho' with
    | immediate hv' => cases slot?_of_immediate hv'
    | back hp' => rw [Option.some.inj (hp.symm.trans hp')]
    | contents _ hs' => exact absurd hs hs'
  | contents hp hs ho =>
    cases ho' with
    | immediate hv' => cases slot?_of_immediate hv'
    | back _ hs' => exact absurd hs' hs
    | contents hp' _ ho' =>
      obtain rfl := Option.some.inj (hp.symm.trans hp')
      exact ho.eq ho' (hparts _ _ rfl hp hs)

namespace Unfolds

theorem nodup (ho : h.Unfolds path v o) : path.Nodup :=
  (ho.places [] path v rfl).1 rfl

theorem root (ho : h.Unfolds path v o) : h.Shows path v o := by
  obtain ⟨path', w, hd, hshows⟩ := ho.shows [] o rfl
  cases hd
  exact hshows

theorem part (ho : h.Unfolds path (.ref s) o) (hp : h.find? s = some p)
    (hx : p.parts[i]? = some x) (hu : o.parts[i]? = some u) : h.Unfolds (s :: path) x u where
  places way path' w hd := by
    rw [← Object.at?_cons hu]
    exact ho.places (i :: way) path' w ((descend_cons hp hx).trans hd)
  shows way y hy := by
    obtain ⟨path', w, hd, hshows⟩ := ho.shows (i :: way) y ((Object.at?_cons hu).trans hy)
    exact ⟨path', w, (descend_cons hp hx).symm.trans hd, hshows⟩

/-- **The parts of an unfolding are the unfoldings of the parts**, which are reached by one slot
more. -/
theorem rel_parts (ho : h.Unfolds path (.ref s) o) (hp : h.find? s = some p) (hs : s ∉ path)
    (i : Nat) : Option.Rel (h.Unfolds (s :: path)) p.parts[i]? o.parts[i]? := by
  cases hx : p.parts[i]? with
  | none =>
    cases hu : o.parts[i]? with
    | none => exact .none
    | some u =>
      obtain ⟨path', w, hd, -⟩ := ho.shows [i] u (Object.at?_cons hu)
      obtain ⟨t, q, x, heq, hq, hx', -⟩ := descend_cons_eq_some.1 hd
      cases heq
      rw [Option.some.inj (hp.symm.trans hq), hx'] at hx
      cases hx
  | some x =>
    have hnodup : (s :: path).Nodup := List.nodup_cons.2 ⟨hs, ho.nodup⟩
    have hat := (ho.places [i] (s :: path) x (descend_cons hp hx)).2 hnodup
    obtain ⟨u, hu, -⟩ := Object.at?_cons_eq_some.1 (Option.get_mem hat)
    rw [hu]
    exact .some (ho.part hp hx hu)

/-- **What has the unfoldings of the parts for its parts is an unfolding.** -/
theorem of_parts (hpath : path.Nodup) (hroot : h.Shows path v o)
    (hparts : ∀ s p, v = .ref s → h.find? s = some p → s ∉ path →
      ∀ i : Nat, Option.Rel (h.Unfolds (s :: path)) p.parts[i]? o.parts[i]?) :
    h.Unfolds path v o where
  places := by
    rintro (_ | ⟨i, way⟩) path' w hd
    · cases hd
      exact iff_of_true rfl hpath
    · obtain ⟨s, p, x, rfl, hp, hx, hd⟩ := descend_cons_eq_some.1 hd
      -- a reference back has no parts, and a way through it would pass its slot twice
      by_cases hs : s ∈ path
      · obtain ⟨passed, rfl, -⟩ := exists_append_of_descend hd
        refine iff_of_false (fun hat => ?_) fun hnodup =>
          (List.nodup_cons.1 (List.nodup_append.1 hnodup).2.1).1 hs
        obtain ⟨u, hu, -⟩ := Object.at?_cons_eq_some.1 (Option.get_mem hat)
        obtain ⟨t, q, heq, -, ht⟩ := hroot.exists_of_part hu
        cases heq
        exact ht hs
      · obtain ⟨u, hu, hpart⟩ := exists_of_some_rel (hx ▸ hparts s p rfl hp hs i)
        rw [Object.at?_cons hu]
        exact hpart.places way path' w hd
  shows := by
    rintro (_ | ⟨i, way⟩) y hy
    · cases hy
      exact ⟨path, v, rfl, hroot⟩
    · obtain ⟨u, hu, hy⟩ := Object.at?_cons_eq_some.1 hy
      obtain ⟨s, p, rfl, hp, hs⟩ := hroot.exists_of_part hu
      obtain ⟨x, hx, hpart⟩ := exists_of_rel_some (hu ▸ hparts s p rfl hp hs i)
      obtain ⟨path', w, hd, hshows⟩ := hpart.shows way y hy
      exact ⟨path', w, (descend_cons hp hx).trans hd, hshows⟩

end Unfolds

/-! ## What is written -/

/-- What is written of contents is of their kind, and made of what is written of the parts. -/
theorem renders_of_objectOf {part : Value → Except Fault Object} (ho : h.objectOf part p = .ok o) :
    h.Renders p o ∧ List.Forall₂ (fun x u => part x = .ok u) p.parts o.parts := by
  by_cases hplain : p.isPlain = true
  · have hwritten : p.Written (fun x u => part x = .ok u) o :=
      written_of_objectOf hplain (fun x _ u hu => hu) ho
    exact ⟨.plain (written_of_objectOf hplain (fun _ _ _ _ => trivial) ho), hwritten.parts⟩
  · cases p with
    | complex re im =>
      cases ho
      exact ⟨.complex re im, .nil⟩
    | userClass name base =>
      cases ho
      exact ⟨.userClass name base, .nil⟩
    | userInstance cls =>
      obtain ⟨name, hname, ho⟩ := bind_eq_ok.1 ho
      cases ho
      exact ⟨.userInstance hname, .nil⟩
    | _ => exact absurd rfl hplain

/-- What stands for the value is what the way leads to, and parts are written with one slot more on
the way and one less to go. -/
theorem shows_of_snapshotFrom (ho : h.snapshotFrom n path v = .ok o) : h.Shows path v o ∧
    ∀ s p, v = .ref s → h.find? s = some p → s ∉ path → ∃ m, n = m + 1 ∧
      List.Forall₂ (fun x u => h.snapshotFrom m (s :: path) x = .ok u) p.parts o.parts := by
  cases v with
  | ref s =>
    cases hread : h.read s with
    | error f => cases n <;> (rw [snapshotFrom, hread] at ho; cases ho)
    | ok p =>
      have hp := read_eq_ok_iff.1 hread
      by_cases hs : s ∈ path
      · obtain rfl : Object.placeholder p = o := by
          cases n <;> simpa only [snapshotFrom, hread, if_pos hs, Except.ok.injEq] using ho
        refine ⟨.back hp hs, ?_⟩
        rintro t q ⟨⟩ - ht
        exact absurd hs ht
      · cases n with
        | zero =>
          simp only [snapshotFrom, hread, if_neg hs] at ho
          cases ho
        | succ m =>
          simp only [snapshotFrom, hread, if_neg hs] at ho
          obtain ⟨hrenders, hparts⟩ := renders_of_objectOf ho
          refine ⟨.contents hp hs hrenders, ?_⟩
          rintro t q ⟨⟩ hq -
          rw [← Option.some.inj (hp.symm.trans hq)]
          exact ⟨m, rfl, hparts⟩
  | _ =>
    refine ⟨.immediate ?_, by rintro s p ⟨⟩⟩
    cases n <;> (cases ho; rfl)

namespace Unfolds

/-- **What is written is an unfolding.** -/
theorem of_snapshotFrom (hpath : path.Nodup) (ho : h.snapshotFrom n path v = .ok o) :
    h.Unfolds path v o := by
  induction n using Nat.strong_induction_on generalizing path v o with
  | h n ih =>
    obtain ⟨hshows, hparts⟩ := shows_of_snapshotFrom ho
    refine .of_parts hpath hshows fun s p hv hp hs => ?_
    obtain ⟨m, rfl, hwritten⟩ := hparts s p hv hp hs
    have hnodup : (s :: path).Nodup := List.nodup_cons.2 ⟨hs, hpath⟩
    exact rel_getElem? (hwritten.imp fun _ _ hu => ih m (Nat.lt_succ_self m) hnodup hu)

/-- **There is no other.** -/
theorem eq_of_snapshotFrom (ho : h.snapshotFrom n path v = .ok o) (ho' : h.Unfolds path v o') :
    o' = o := by
  induction n using Nat.strong_induction_on generalizing path v o o' with
  | h n ih =>
    obtain ⟨hshows, hparts⟩ := shows_of_snapshotFrom ho
    refine ho'.root.eq hshows fun s p hv hp hs => List.ext_getElem? fun i => ?_
    obtain ⟨m, rfl, hwritten⟩ := hparts s p hv hp hs
    subst hv
    exact eq_of_rel (ho'.rel_parts hp hs i) (rel_getElem? hwritten i) fun _ _ _ hu hu' =>
      ih m (Nat.lt_succ_self m) hu' hu

/-- The object at a place is an unfolding as well, of what the way leads to. -/
theorem exists_at? (ho : h.Unfolds path v o) (hd : h.descend way path v = some (path', w))
    (hpath : path'.Nodup) : ∃ u, o.at? way = some u ∧ h.Unfolds path' w u := by
  induction way generalizing path v o with
  | nil =>
    cases hd
    exact ⟨o, rfl, ho⟩
  | cons i way ih =>
    obtain ⟨s, p, x, rfl, hp, hx, hd⟩ := descend_cons_eq_some.1 hd
    obtain ⟨passed, rfl, -⟩ := exists_append_of_descend hd
    have hs : s ∉ path := (List.nodup_cons.1 (List.nodup_append.1 hpath).2.1).1
    obtain ⟨part, hpart, hunfolds⟩ := exists_of_some_rel (hx ▸ ho.rel_parts hp hs i)
    obtain ⟨u, hu, hw⟩ := ih hunfolds hd
    exact ⟨u, (Object.at?_cons hpart).trans hu, hw⟩

/-- **Slots on the way that do not occur in a value make no difference to it.** -/
theorem of_avoids (ho : h.Unfolds path v o) (hpath : ∀ s ∈ path, ¬h.Occurs (.ref s) v) :
    h.Unfolds [] v o where
  places way passed w hd := by
    have hd' : h.descend way path v = some (passed ++ path, w) := by
      rw [← List.nil_append path, descend_append, hd, Option.map_some]
      rfl
    have hne : ∀ s ∈ passed, ∀ t ∈ path, s ≠ t := by
      rintro s hs t ht rfl
      rcases (occurs_of_descend hd).2 s hs with hs | ⟨hocc, -⟩
      · cases hs
      · exact hpath s ht hocc
    rw [ho.places way _ w hd', List.nodup_append]
    exact ⟨fun hnodup => hnodup.1, fun hnodup => ⟨hnodup, ho.nodup, hne⟩⟩
  shows way u hu := by
    obtain ⟨path', w, hd, hshows⟩ := ho.shows way u hu
    obtain ⟨passed, rfl, hd'⟩ := exists_append_of_descend hd
    refine ⟨passed, w, hd', ?_⟩
    have hocc := (occurs_of_descend hd').1
    cases hshows with
    | immediate hv => exact .immediate hv
    | back hp hs =>
      refine .back hp ((List.mem_append.1 hs).resolve_right fun hs => hpath _ hs hocc)
    | contents hp hs ho => exact .contents hp (fun hs' => hs (List.mem_append_left _ hs')) ho

end Unfolds

end Heap

end ValueHeap
