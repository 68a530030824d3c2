import ValueHeap.Heap.TypeRef
import ValueHeap.Outcome

/-!
# Deep copies

A deep copy of a value shares no list, dict or set with it that could change.  Lists, tuples, dicts
and sets are built anew; everything else cannot change and is shared, and so are the keys of dicts
and the elements of sets.  Instances of classes are not copied.

A copy that fails half way gives back everything it has built.

## What is here

* `Copy.items` and `Copy.entries` — the parts of a container, copied in order behind those that are
  already done, which are given back if one fails.
* `Copy.container` — a container of copied parts, which is reported when it is there.
* `Copy.within` — the copy of a value while so many levels of nesting are left, and `deepCopy`,
  which takes what the heap has left.
-/

set_option autoImplicit false

namespace ValueHeap

namespace Copy

/-- Copies values behind those that are done. -/
def items (copy : Value → Action Value) (done : List Value) : List Value → Action (List Value)
  | [] => pure done
  | v :: rest => do
    let copied ← Action.onError (copy v) (Action.release done)
    items copy (done ++ [copied]) rest

/-- Copies entries behind those that are done.  The value is copied, and the key is shared with the
hash that it has. -/
def entries (copy : Value → Action Value) (done : List Entry) : List Entry → Action (List Entry)
  | [] => pure done
  | e :: rest => do
    let value ← Action.onError (copy e.value) (Action.release (done.flatMap Entry.parts))
    let key ← Action.retain e.key.value
    entries copy (done ++ [⟨⟨key, e.key.hash⟩, value⟩]) rest

/-- Shares elements, each with the hash that it has. -/
def elements : List HashedKey → Action (List HashedKey)
  | [] => pure []
  | e :: rest => do
    let value ← Action.retain e.value
    let others ← elements rest
    pure (⟨value, e.hash⟩ :: others)

/-- Places the copy of a container and reports it with the level that it is on. -/
def container (ty : BuiltinType) (length : Nat) (p : Payload) : Action Value := do
  let copied ← Action.allocate p
  let depth ← Action.look fun h => .ok h.depth
  Action.report (.copied ty length depth)
  pure copied

/-- The copy of a value, where `inside` copies the parts of a container, and is missing when no
level is left for them. -/
def ofValue (inside : Option (Value → Action Value)) (v : Value) : Action Value :=
  match v with
  | .ref s => do
    match ← Action.look fun h => h.read s with
    | .list vs => contents fun copy => do
      let copied ← items copy [] vs
      container .list copied.length (.list copied)
    | .tuple vs => contents fun copy => do
      let copied ← items copy [] vs
      container .tuple copied.length (.tuple copied)
    | .dict es => contents fun copy => do
      let copied ← entries copy [] es
      container .dict copied.length (.dict copied)
    | .set es => contents fun _ => do
      let shared ← elements es
      container .set shared.length (.set shared)
    | .userInstance cls => do
      let name ← Action.look fun h => h.nameOfType (.userClass cls)
      Action.raise (.unsupported .deepCopy name)
    | _ => Action.retain v
  | _ => pure v
where
  /-- The copy of a container, one level further down. -/
  contents (x : (Value → Action Value) → Action Value) : Action Value :=
    match inside with
    | some copy => Action.oneLevelDown (x copy)
    | none => Action.consult fun h _ =>
      Answer.refuse h.budget.depthLimit (.resource h.budget.noLevelLeft)

/-- The copy of a value while so many levels are left. -/
def within : Nat → Value → Action Value
  | 0, v => ofValue none v
  | levels + 1, v => ofValue (some (within levels)) v

end Copy

/-- A deep copy of a value. -/
def deepCopy (v : Value) : Action Value := fun h =>
  Copy.within h.levelsLeft v h

end ValueHeap
