import ValueHeap.Object.Basic
import ValueHeap.Heap.TypeRef
import ValueHeap.Outcome

/-!
# Snapshots

A snapshot writes a value out in full, as an object.  A list may contain itself, so the snapshot
keeps a set of slots, those on the way down to where it is: a reference to one of them is not
followed again but written as a stand-in.  On the way back a slot leaves the set, so slots seen
elsewhere are written out each time.

## What is here

* `Object.placeholder` — the stand-in for a reference back to a slot on the way.
* `Heap.objectOf` — the object for contents, and `Heap.snapshot` — the object for a value.
* `takeObject` — the snapshot of a value that is given up.
-/

set_option autoImplicit false

namespace ValueHeap

/-- What stands for a reference back to contents on the way down. -/
def Object.placeholder : Payload → Object
  | .list _ => .standIn "[...]"
  | .tuple _ => .standIn "(...)"
  | .dict _ | .set _ => .standIn "\x7b...\x7d"
  | _ => .standIn "..."

namespace Heap

/-- The object for contents, from the objects for their parts, which are written in order. -/
def objectOf {m : Type → Type} [Monad m] [MonadLiftT (Except Fault) m] (h : Heap)
    (part : Value → m Object) : Payload → m Object
  | .str text => pure (.str text)
  | .bytes data => pure (.bytes data)
  | .longInt n => pure (.bigInt n)
  | .complex re im => pure (.complex re im)
  | .list items => Object.list <$> items.mapM part
  | .tuple items => Object.tuple <$> items.mapM part
  | .set elements => Object.set <$> elements.mapM fun e => part e.value
  | .dict entries => Object.dict <$> entries.mapM fun e => do
    let key ← part e.key.value
    let value ← part e.value
    pure (key, value)
  | .range p => pure (.range p.start p.stop p.step)
  | .slice start stop step => do
    let first ← part start
    let second ← part stop
    let third ← part step
    pure (.slice first second third)
  | .userClass name _ => pure (.standIn s!"<class '{name}'>")
  | .userInstance cls => do
    let name ← liftM (h.nameOfType (.userClass cls))
    pure (.standIn s!"<{name} object>")

/-- Writes a value out, on at most so many further slots.  The state holds the slots whose contents
are being written: a slot is put in before its contents are written, and taken out after them. -/
def snapshotWith (h : Heap) : Nat → Value → StateT (List Slot) (Except Fault) Object
  | _, .none => pure .none
  | _, .ellipsis => pure .ellipsis
  | _, .bool b => pure (.bool b)
  | _, .int n => pure (.int n)
  | _, .float x => pure (.float x)
  | _, .builtin ty => pure (.type ty)
  | 0, .ref s => do
    let contents ← liftM (h.read s)
    if s ∈ (← get) then pure (Object.placeholder contents) else throw .endless
  | slots + 1, .ref s => do
    let contents ← liftM (h.read s)
    if s ∈ (← get) then pure (Object.placeholder contents)
    else
      modify (s :: ·)
      let object ← h.objectOf (h.snapshotWith slots) contents
      modify (·.erase s)
      pure object

/-- The object for a value.  No way down is longer than the number of slots, since it meets none of
them twice. -/
def snapshot (h : Heap) (v : Value) : Except Fault Object :=
  (h.snapshotWith h.cells.size v).run' []

end Heap

/-- The object for a value, whose reference is given back. -/
def takeObject (v : Value) : Action Object := do
  let object ← Action.look fun h => h.snapshot v
  Action.release [v]
  pure object

end ValueHeap
