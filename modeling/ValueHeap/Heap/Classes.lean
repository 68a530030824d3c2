import ValueHeap.Heap.TypeRef
import ValueHeap.Outcome

/-!
# Classes and instances

A class has a name and may inherit from another class; an instance belongs to a class.  Both keep a
reference to the class that they depend on.

## What is here

* `newClass` — a class with an optional base, which must be a class.
* `newInstance` — an instance of a class.
* `typeValue` — a type as a value of its own.
-/

set_option autoImplicit false

namespace ValueHeap

/-- The slot of a value that is a class of its own. -/
def classSlot? (v : Value) : Action (Option Slot) :=
  match v with
  | .ref s => do
    let contents ← Action.look fun h => h.read s
    pure (if contents.isClass then some s else none)
  | _ => pure none

/-- A new class, which takes a reference to its base. -/
def newClass (name : String) (base : Option Value) : Action Value :=
  match base with
  | none => Action.allocate (.userClass name none)
  | some b => do
    match ← classSlot? b with
    | some s => do
      let _ ← Action.retain b
      Action.allocate (.userClass name (some s))
    | none => do
      let ty ← Action.look fun h => h.typeName b
      Action.raise (.badBase ty)

/-- A new instance, which takes a reference to its class. -/
def newInstance (cls : Value) : Action Value := do
  match ← classSlot? cls with
  | some s => do
    let _ ← Action.retain cls
    Action.allocate (.userInstance s)
  | none => do
    let ty ← Action.look fun h => h.typeName cls
    Action.raise (.notAClass ty)

/-- A type as a value, with a reference of its own if it is a class. -/
def typeValue : TypeRef → Action Value
  | .builtin ty => pure (.builtin ty)
  | .userClass s => Action.retain (.ref s)

end ValueHeap
