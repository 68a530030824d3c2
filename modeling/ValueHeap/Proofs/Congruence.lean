import ValueHeap.Engine
import ValueHeap.Proofs.Heap.Cells

/-!
# Relations between operations

Building a value and copying one are put together in a few ways from what is done to single slots.
A relation between operations that is kept by these ways, and in which what is done to single slots
stands to itself, is one in which building stands to building, and copying to copying.  Fingerprints
are put together from even less.

Two things are left open, so that all three can be held against variants of themselves: how a key is
looked for, and how a level is taken for the parts of a container.

## What is here

* `Copy.ofValueWith` and `Fingerprint.ofValueWith` — copying and fingerprints with another way to
  take a level.
* `Build.insertWith`, `Build.addWith` and `Object.buildWith` — building with another search for
  keys.
* `Action.Congruence` — the relations that are kept.
* `Action.Congruence.ofValueWith` and `Action.Congruence.buildWith` — copying and building stand in
  such a relation.
* `Answer.Congruence` and `Answer.Congruence.ofValueWith` — the same for fingerprints.
-/

set_option autoImplicit false

namespace ValueHeap

/-! ## Variants -/

namespace Copy

/-- The copy of a value, where `down` takes a level for the parts of a container. -/
def ofValueWith (down : ((Value → Action Value) → Action Value) → Action Value) (v : Value) :
    Action Value :=
  match v with
  | .ref s => do
    match ← Action.look fun h => h.read s with
    | .list vs => down fun copy => do
      let copied ← items copy [] vs
      container .list copied.length (.list copied)
    | .tuple vs => down fun copy => do
      let copied ← items copy [] vs
      container .tuple copied.length (.tuple copied)
    | .dict es => down fun copy => do
      let copied ← entries copy [] es
      container .dict copied.length (.dict copied)
    | .set es => down fun _ => do
      let shared ← elements es
      container .set shared.length (.set shared)
    | .userInstance cls => do
      let name ← Action.look fun h => h.nameOfType (.userClass cls)
      Action.raise (.unsupported .deepCopy name)
    | _ => Action.retain v
  | _ => pure v

theorem ofValue_eq (inside : Option (Value → Action Value)) :
    ofValue inside = ofValueWith (ofValue.contents inside) := rfl

end Copy

namespace Fingerprint

/-- The fingerprint of contents, where `down` takes a level for the parts of a container. -/
def ofContentsWith (h : Heap) (levels : Nat)
    (down : ((Value → Answer Int64) → Answer Int64) → Answer Int64) : Payload → Answer Int64
  | .str text => pure (rollingText (header .str) text)
  | .bytes data => pure (rolling (header .bytes) data)
  | .longInt n => ofInt h.budget.digitLimit n
  | .complex re im => pure (rolling (header .complex) (re.bytes ++ im.bytes))
  | .range _ => pure (header .range)
  | .slice .. => pure (header .slice)
  | .userClass name _ => pure (ofType name)
  | .userInstance cls => do
    let name ← Answer.look levels (h.nameOfType (.userClass cls))
    Answer.raise (.unsupported .deepHash name)
  | .list items => down fun part => fold part (header .list) items
  | .tuple items => down fun part => fold part (header .tuple) items
  | .set elements => down fun part => fold part (header .set) (elements.map (·.value))
  | .dict entries => down fun part => foldEntries part (header .dict) entries

/-- The fingerprint of a value, where `down` takes a level for the parts of a container. -/
def ofValueWith (h : Heap) (levels : Nat)
    (down : ((Value → Answer Int64) → Answer Int64) → Answer Int64) : Value → Answer Int64
  | .none => pure (header .noneType)
  | .ellipsis => pure (header .ellipsis)
  | .bool _ => pure (header .bool)
  | .int n => ofInt h.budget.digitLimit n.toInt
  | .float x => pure (rolling (header .float) x.bytes)
  | .builtin ty => pure (ofType ty.name)
  | .ref s => do
    let contents ← Answer.look levels (h.read s)
    ofContentsWith h levels down contents

end Fingerprint

/-- A search for a key among stored ones. -/
abbrev Build.Search := HashedKey → List HashedKey → Action (Option Nat)

namespace Build

/-- Puts a value under a key, which is looked for by `search`. -/
def insertWith (search : Search) (done : List Entry) (key : HashedKey) (value : Value) :
    Action (List Entry) := do
  let place ← Action.onError (search key (done.map Entry.key)) (Action.release [key.value, value])
  match place.bind fun i => done[i]?.map fun e => (i, e) with
  | some (i, e) => do
    Action.release [e.value]
    Action.release [key.value]
    pure (done.set i { e with value })
  | none => pure (done ++ [⟨key, value⟩])

/-- Adds an element, which is looked for by `search`. -/
def addWith (search : Search) (done : List HashedKey) (value : Value) :
    Action (List HashedKey) := do
  let hash ← Action.onError (hashOf value) (Action.release [value])
  let place ← Action.onError (search ⟨value, hash⟩ done) (Action.release [value])
  if place.isSome then do
    Action.release [value]
    pure done
  else pure (done ++ [⟨value, hash⟩])

end Build

namespace Object

open Build

mutual

/-- The value for an object, where keys are looked for by `search`. -/
def buildWith (search : Search) : Object → Action Value
  | none => pure .none
  | ellipsis => pure .ellipsis
  | bool b => pure (.bool b)
  | int n => pure (.int n)
  | bigInt n => integer n
  | float x => pure (.float x)
  | complex re im => Action.allocate (.complex re im)
  | str text => Action.allocate (.str text)
  | bytes data => Action.allocate (.bytes data)
  | list items => do
    let values ← buildItemsWith search [] items
    Action.allocate (.list values)
  | tuple items => do
    let values ← buildItemsWith search [] items
    Action.allocate (.tuple values)
  | dict entries => do
    let stored ← buildEntriesWith search [] entries
    Action.allocate (.dict stored)
  | set elements => do
    let stored ← buildElementsWith search [] elements
    Action.allocate (.set stored)
  | range start stop step =>
    match Progression.make? start stop step with
    | some p => Action.allocate (.range p)
    | Option.none => Action.raise .zeroStep
  | slice start stop step => do
    let first ← buildWith search start
    let second ← Action.onError (buildWith search stop) (Action.release [first])
    let third ← Action.onError (buildWith search step) (Action.release [first, second])
    Action.allocate (.slice first second third)
  | type ty => pure (.builtin ty)
  | standIn _ => Action.raise .notConvertible

/-- Values for objects, behind those that are done. -/
def buildItemsWith (search : Search) (done : List Value) : List Object → Action (List Value)
  | [] => pure done
  | o :: rest => do
    let value ← Action.onError (buildWith search o) (Action.release done)
    buildItemsWith search (done ++ [value]) rest

/-- Entries for pairs of objects, behind those that are done. -/
def buildEntriesWith (search : Search) (done : List Entry) :
    List (Object × Object) → Action (List Entry)
  | [] => pure done
  | (k, v) :: rest => do
    let stored ← Action.onError
      (do
        let key ← buildWith search k
        let hash ← Action.onError (hashOf key) (Action.release [key])
        let value ← Action.onError (buildWith search v) (Action.release [key])
        insertWith search done ⟨key, hash⟩ value)
      (Action.release (done.flatMap Entry.parts))
    buildEntriesWith search stored rest

/-- Elements for objects, behind those that are done. -/
def buildElementsWith (search : Search) (done : List HashedKey) :
    List Object → Action (List HashedKey)
  | [] => pure done
  | o :: rest => do
    let stored ← Action.onError
      (do
        let value ← buildWith search o
        addWith search done value)
      (Action.release (done.map HashedKey.value))
    buildElementsWith search stored rest

end

end Object

/-! ## Relations that are kept -/

/-- A relation between operations that is kept by the ways in which building and copying are put
together.  What is done to single slots stands in it to itself. -/
structure Action.Congruence (R : ∀ ⦃α : Type⦄, Action α → Action α → Prop) : Prop where
  pure : ∀ {α : Type} (a : α), R (Pure.pure a) (Pure.pure a)
  raise : ∀ {α : Type} (c : Cause), R (Action.raise c : Action α) (Action.raise c)
  report : ∀ e : Event, R (Action.report e) (Action.report e)
  /-- What is looked up is decided by the slots alone. -/
  look : ∀ {α : Type} {f : Heap → Except Fault α},
    (∀ h k : Heap, k.cells = h.cells → f k = f h) → R (Action.look f) (Action.look f)
  /-- But for the level that a copy is reported with. -/
  depth : R (Action.look fun h => .ok h.depth) (Action.look fun h => .ok h.depth)
  bind : ∀ {α β : Type} {x y : Action α} {f g : α → Action β},
    R x y → (∀ a, R (f a) (g a)) → R (x >>= f) (y >>= g)
  onError : ∀ {α : Type} {x y : Action α}, R x y → ∀ vs : List Value,
    R (Action.onError x (Action.release vs)) (Action.onError y (Action.release vs))
  retain : ∀ v : Value, R (Action.retain v) (Action.retain v)
  release : ∀ vs : List Value, R (Action.release vs) (Action.release vs)
  allocate : ∀ p : Payload, R (Action.allocate p) (Action.allocate p)

namespace Action.Congruence

variable {R Q : ∀ ⦃α : Type⦄, Action α → Action α → Prop}

/-! ## Copying -/

section Copies

variable (hR : Congruence R)

include hR

theorem items {copy copy' : Value → Action Value} (hcopy : ∀ v, R (copy v) (copy' v))
    (done values : List Value) :
    R (Copy.items copy done values) (Copy.items copy' done values) := by
  induction values generalizing done with
  | nil => exact hR.pure done
  | cons v rest ih => exact hR.bind (hR.onError (hcopy v) done) fun copied => ih (done ++ [copied])

theorem entries {copy copy' : Value → Action Value} (hcopy : ∀ v, R (copy v) (copy' v))
    (done entries : List Entry) :
    R (Copy.entries copy done entries) (Copy.entries copy' done entries) := by
  induction entries generalizing done with
  | nil => exact hR.pure done
  | cons e rest ih =>
    refine hR.bind (hR.onError (hcopy e.value) _) fun value => ?_
    exact hR.bind (hR.retain e.key.value) fun key => ih (done ++ [⟨⟨key, e.key.hash⟩, value⟩])

theorem elements (elements : List HashedKey) :
    R (Copy.elements elements) (Copy.elements elements) := by
  induction elements with
  | nil => exact hR.pure []
  | cons e rest ih =>
    exact hR.bind (hR.retain e.value) fun value => hR.bind ih fun others => hR.pure _

theorem container (ty : BuiltinType) (length : Nat) (p : Payload) :
    R (Copy.container ty length p) (Copy.container ty length p) := by
  refine hR.bind (hR.allocate p) fun copied => hR.bind hR.depth fun depth => ?_
  exact hR.bind (hR.report _) fun _ => hR.pure copied

/-- **One level of copying stands to another one** if taking a level leads from what stands in one
such relation to what stands in the other. -/
theorem ofValueWith (hQ : Congruence Q)
    (down down' : ((Value → Action Value) → Action Value) → Action Value)
    (hdown : ∀ x, (∀ copy copy', (∀ v, Q (copy v) (copy' v)) → Q (x copy) (x copy')) →
      R (down x) (down' x)) (v : Value) :
    R (Copy.ofValueWith down v) (Copy.ofValueWith down' v) := by
  cases v with
  | ref s =>
    refine hR.bind (hR.look fun _ _ hcells => Heap.read_congr hcells s) fun p => ?_
    cases p with
    | list vs =>
      exact hdown _ fun _ _ hcopy =>
        hQ.bind (hQ.items hcopy [] vs) fun copied => hQ.container _ _ _
    | tuple vs =>
      exact hdown _ fun _ _ hcopy =>
        hQ.bind (hQ.items hcopy [] vs) fun copied => hQ.container _ _ _
    | dict es =>
      exact hdown _ fun _ _ hcopy =>
        hQ.bind (hQ.entries hcopy [] es) fun copied => hQ.container _ _ _
    | set es =>
      exact hdown _ fun _ _ _ => hQ.bind (hQ.elements es) fun shared => hQ.container _ _ _
    | userInstance cls =>
      refine hR.bind (hR.look fun _ _ hcells => ?_) fun name => hR.raise _
      exact Heap.nameOfType_congr hcells _
    | _ => exact hR.retain _
  | _ => exact hR.pure _

end Copies

/-! ## Building -/

section Builds

variable (hR : Congruence R)

include hR

theorem hashOf (v : Value) : R (Build.hashOf v) (Build.hashOf v) := by
  refine hR.bind (hR.look fun _ _ hcells => Heap.keyHash_congr hcells v) fun hash => ?_
  cases hash with
  | some hash => exact hR.pure hash
  | none =>
    refine hR.bind (hR.look fun _ _ hcells => ?_) fun name => hR.raise _
    exact Heap.typeName_congr hcells v

theorem integer (n : Int) : R (Build.integer n) (Build.integer n) := by
  rw [Build.integer]
  split
  · exact hR.pure _
  · exact hR.allocate _

variable {search : Build.Search}

theorem insertWith
    (hsearch : ∀ wanted stored, R (Build.find wanted stored) (search wanted stored))
    (done : List Entry) (key : HashedKey) (value : Value) :
    R (Build.insert done key value) (Build.insertWith search done key value) := by
  refine hR.bind (hR.onError (hsearch key _) _) fun place => ?_
  cases place.bind fun i => done[i]?.map fun e => (i, e) with
  | none => exact hR.pure _
  | some found =>
    exact hR.bind (hR.release _) fun _ => hR.bind (hR.release _) fun _ => hR.pure _

theorem addWith (hsearch : ∀ wanted stored, R (Build.find wanted stored) (search wanted stored))
    (done : List HashedKey) (value : Value) :
    R (Build.add done value) (Build.addWith search done value) := by
  refine hR.bind (hR.onError (hR.hashOf value) _) fun hash => ?_
  refine hR.bind (hR.onError (hsearch ⟨value, hash⟩ done) _) fun place => ?_
  split
  · exact hR.bind (hR.release _) fun _ => hR.pure _
  · exact hR.pure _

mutual

/-- **Building stands to building with another search** if the one search stands to the other. -/
theorem buildWith
    (hsearch : ∀ wanted stored, R (Build.find wanted stored) (search wanted stored)) :
    ∀ o : Object, R o.build (o.buildWith search)
  | .none => hR.pure _
  | .ellipsis => hR.pure _
  | .bool _ => hR.pure _
  | .int _ => hR.pure _
  | .bigInt n => hR.integer n
  | .float _ => hR.pure _
  | .complex _ _ => hR.allocate _
  | .str _ => hR.allocate _
  | .bytes _ => hR.allocate _
  | .list items => hR.bind (buildItemsWith hsearch items []) fun _ => hR.allocate _
  | .tuple items => hR.bind (buildItemsWith hsearch items []) fun _ => hR.allocate _
  | .dict entries => hR.bind (buildEntriesWith hsearch entries []) fun _ => hR.allocate _
  | .set elements => hR.bind (buildElementsWith hsearch elements []) fun _ => hR.allocate _
  | .range start stop step => by
    rw [Object.build, Object.buildWith]
    cases Progression.make? start stop step with
    | some p => exact hR.allocate _
    | none => exact hR.raise _
  | .slice start stop step => by
    refine hR.bind (buildWith hsearch start) fun first => ?_
    refine hR.bind (hR.onError (buildWith hsearch stop) _) fun second => ?_
    exact hR.bind (hR.onError (buildWith hsearch step) _) fun third => hR.allocate _
  | .type _ => hR.pure _
  | .standIn _ => hR.raise _

theorem buildItemsWith
    (hsearch : ∀ wanted stored, R (Build.find wanted stored) (search wanted stored)) :
    ∀ (objects : List Object) (done : List Value),
      R (Object.buildItems done objects) (Object.buildItemsWith search done objects)
  | [], done => hR.pure done
  | o :: rest, done =>
    hR.bind (hR.onError (buildWith hsearch o) done) fun value =>
      buildItemsWith hsearch rest (done ++ [value])

theorem buildEntriesWith
    (hsearch : ∀ wanted stored, R (Build.find wanted stored) (search wanted stored)) :
    ∀ (pairs : List (Object × Object)) (done : List Entry),
      R (Object.buildEntries done pairs) (Object.buildEntriesWith search done pairs)
  | [], done => hR.pure done
  | (key, value) :: rest, done => by
    refine hR.bind (hR.onError ?_ _) fun stored => buildEntriesWith hsearch rest stored
    refine hR.bind (buildWith hsearch key) fun key => ?_
    refine hR.bind (hR.onError (hR.hashOf key) _) fun hash => ?_
    exact hR.bind (hR.onError (buildWith hsearch value) _) fun value =>
      hR.insertWith hsearch done ⟨key, hash⟩ value

theorem buildElementsWith
    (hsearch : ∀ wanted stored, R (Build.find wanted stored) (search wanted stored)) :
    ∀ (objects : List Object) (done : List HashedKey),
      R (Object.buildElements done objects) (Object.buildElementsWith search done objects)
  | [], done => hR.pure done
  | o :: rest, done => by
    refine hR.bind (hR.onError ?_ _) fun stored => buildElementsWith hsearch rest stored
    exact hR.bind (buildWith hsearch o) fun value => hR.addWith hsearch done value

end

end Builds

/-- Equality is such a relation. -/
theorem eq : Congruence fun _ x y => x = y where
  pure _ := rfl
  raise _ := rfl
  report _ := rfl
  look _ := rfl
  depth := rfl
  bind hxy hfg := by rw [hxy, funext hfg]
  onError hxy _ := by rw [hxy]
  retain _ := rfl
  release _ := rfl
  allocate _ := rfl

/-- Building with the search that it makes by itself is building. -/
theorem build (hR : Congruence R)
    (hfind : ∀ wanted stored, R (Build.find wanted stored) (Build.find wanted stored))
    (o : Object) : R o.build o.build := by
  have hsame : o.build = o.buildWith Build.find := eq.buildWith (fun _ _ => rfl) o
  conv => rhs; rw [hsame]
  exact hR.buildWith hfind o

end Action.Congruence

/-! ## Fingerprints -/

/-- A relation between answers that is kept when they are put together.  Things are looked up with
`m` levels left on the one side and with `n` on the other. -/
structure Answer.Congruence (m n : Nat) (R : ∀ ⦃α : Type⦄, Answer α → Answer α → Prop) : Prop where
  pure : ∀ {α : Type} (a : α), R (Pure.pure a) (Pure.pure a)
  raise : ∀ {α : Type} (c : Cause), R (Answer.raise c : Answer α) (Answer.raise c)
  report : ∀ e : Event, R (Answer.report e) (Answer.report e)
  look : ∀ {α : Type} (u : Except Fault α), R (Answer.look m u) (Answer.look n u)
  bind : ∀ {α β : Type} {x y : Answer α} {f g : α → Answer β},
    R x y → (∀ a, R (f a) (g a)) → R (x >>= f) (y >>= g)

/-- What is put together from the fingerprints of parts stands in every such relation if these
do. -/
def Fingerprint.Folds (x : (Value → Answer Int64) → Answer Int64) : Prop :=
  ∀ ⦃m n : Nat⦄ ⦃R : ∀ ⦃α : Type⦄, Answer α → Answer α → Prop⦄, Answer.Congruence m n R →
    ∀ ⦃part part' : Value → Answer Int64⦄, (∀ v, R (part v) (part' v)) → R (x part) (x part')

namespace Answer.Congruence

theorem eq (n : Nat) : Congruence n n fun _ x y => x = y where
  pure _ := rfl
  raise _ := rfl
  report _ := rfl
  look _ := rfl
  bind hxy hfg := by rw [hxy, funext hfg]

theorem fold (acc : Int64) (values : List Value) :
    Fingerprint.Folds fun part => Fingerprint.fold part acc values := by
  intro m n R hR part part' hpart
  induction values generalizing acc with
  | nil => exact hR.pure acc
  | cons v rest ih => exact hR.bind (hpart v) fun word => ih (acc ^^^ word)

theorem foldEntries (acc : Int64) (entries : List Entry) :
    Fingerprint.Folds fun part => Fingerprint.foldEntries part acc entries := by
  intro m n R hR part part' hpart
  induction entries generalizing acc with
  | nil => exact hR.pure acc
  | cons e rest ih =>
    exact hR.bind (hpart e.key.value) fun key => hR.bind (hpart e.value) fun value =>
      ih (acc ^^^ (key ^^^ value))

section Values

variable {m n : Nat} {R : ∀ ⦃α : Type⦄, Answer α → Answer α → Prop} (hR : Congruence m n R)

include hR

theorem ofInt (limit : Option Nat) (i : Int) :
    R (Fingerprint.ofInt limit i) (Fingerprint.ofInt limit i) := by
  rw [Fingerprint.ofInt]
  split
  · exact hR.pure _
  · exact hR.bind (hR.report _) fun _ => hR.pure _

variable {h k : Heap} (hcells : k.cells = h.cells)
  (hdigits : k.budget.digitLimit = h.budget.digitLimit)

include hcells hdigits

/-- **One level of a fingerprint stands to another one** if taking a level does. -/
theorem ofValueWith (down down' : ((Value → Answer Int64) → Answer Int64) → Answer Int64)
    (hdown : ∀ x, Fingerprint.Folds x → R (down x) (down' x)) (v : Value) :
    R (Fingerprint.ofValueWith h m down v) (Fingerprint.ofValueWith k n down' v) := by
  cases v with
  | int i =>
    rw [Fingerprint.ofValueWith, Fingerprint.ofValueWith, hdigits]
    exact hR.ofInt _ _
  | ref s =>
    rw [Fingerprint.ofValueWith, Fingerprint.ofValueWith, Heap.read_congr hcells]
    refine hR.bind (hR.look _) fun p => ?_
    cases p with
    | longInt i =>
      rw [Fingerprint.ofContentsWith, Fingerprint.ofContentsWith, hdigits]
      exact hR.ofInt _ _
    | userInstance cls =>
      rw [Fingerprint.ofContentsWith, Fingerprint.ofContentsWith, Heap.nameOfType_congr hcells]
      exact hR.bind (hR.look _) fun name => hR.raise _
    | list items => exact hdown _ (fold _ _)
    | tuple items => exact hdown _ (fold _ _)
    | set elements => exact hdown _ (fold _ _)
    | dict entries => exact hdown _ (foldEntries _ _)
    | _ => exact hR.pure _
  | _ => exact hR.pure _

end Values

end Answer.Congruence

end ValueHeap
