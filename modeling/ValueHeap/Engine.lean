import ValueHeap.Compare.Rich
import ValueHeap.Copy
import ValueHeap.Fingerprint
import ValueHeap.Heap.Classes
import ValueHeap.Heap.Items
import ValueHeap.KeyHash
import ValueHeap.Object.Build
import ValueHeap.Object.Literal
import ValueHeap.Object.Snapshot

/-!
# Running operations one after the other

An engine is a heap in use: with the mode in which values compare, and a tracer that is shown what
the operations report.

## What is here

* `Engine` — the three together, and `Engine.start`.
* `Engine.perform` — runs an operation, and shows its events to the tracer.
* `Engine.copy`, `Engine.fingerprint`, `Engine.compare` and their like — the structural operations
  in the mode of the engine.
-/

set_option autoImplicit false

namespace ValueHeap

/-- A heap in use. -/
structure Engine where
  /-- The heap. -/
  heap : Heap
  /-- The mode in which values compare. -/
  mode : Mode
  /-- The observer of events. -/
  tracer : Tracer

namespace Engine

/-- An engine with an empty heap. -/
def start (budget : Budget) (mode : Mode) (tracer : Tracer) : Engine :=
  ⟨Heap.empty budget, mode, tracer⟩

/-- Runs an operation. -/
def perform {α : Type} (e : Engine) (x : Action α) : Except Failure α × Engine :=
  let outcome := x e.heap
  (outcome.result,
    { e with heap := outcome.heap, tracer := e.tracer.observeAll outcome.events })

/-- Copies a value. -/
def copy (e : Engine) (v : Value) : Except Failure Value × Engine :=
  e.perform (deepCopy v)

/-- Fingerprints a value. -/
def fingerprint (e : Engine) (v : Value) : Except Failure Int64 × Engine :=
  e.perform (deepHash v)

/-- Compares two values. -/
def compare (e : Engine) (a b : Value) (op : Operator) : Except Failure Bool × Engine :=
  e.perform (richCompare e.mode a b op)

/-- Compares two values without taking a level for them. -/
def compareHere (e : Engine) (a b : Value) (op : Operator) : Except Failure Bool × Engine :=
  e.perform (richCompareHere e.mode a b op)

/-- Compares two values by the fallback rules alone. -/
def compareByFallback (e : Engine) (a b : Value) (op : Operator) :
    Except Failure Bool × Engine :=
  e.perform (ValueHeap.compareByFallback e.mode a b op)

end Engine

end ValueHeap
