import Mathlib.Data.Multiset.AddSub
import ValueHeap.Engine
import ValueHeap.Proofs.Heap.Carries

/-!
# Runs of requests

A caller owns values and asks for one thing after the other: to build a value or to copy one, to
release one, to put one into a list.  What it owns afterwards is what it owned before, without the
values that it handed over and with those that it received.

## What is here

* `Request` — what a caller can ask for, with the values that it hands over (`Request.takes`) and
  those that must be in use (`Request.looksAt`).
* `Request.perform` — the operation that is run, with the values that the caller receives.
* `Request.FindsPlace` — that a list has a place for the item that is handed over.
* `Custody` — a heap with the values that the caller owns.
* `Request.Backed` and `Request.Permitted` — what a caller can ask for with what it owns, and what
  it asks for if nothing is to be lost.
* `Reachable` — what can come about from a heap without slots, by requests that end in a result or
  in an error.
-/

set_option autoImplicit false

namespace ValueHeap

/-- Whether a caller can put the contents together.  Classes and instances come from operations of
their own, and so does whatever has keys. -/
def Payload.isOpen : Payload → Bool
  | userClass .. | userInstance _ => false
  | contents => contents.keys.isEmpty

/-- What such contents refer to are the slots of their parts. -/
theorem Payload.slotsOf_parts {p : Payload} (hp : p.isOpen = true) :
    slotsOf p.parts = p.children := by
  cases p <;> first | rfl | cases hp

/-- What a caller can ask of a heap. -/
inductive Request where
  /-- To build the value for an object. -/
  | build (o : Object)
  /-- To write a value out and give it up. -/
  | take (v : Value)
  /-- To have one more reference to a value. -/
  | clone (v : Value)
  /-- To give up a value. -/
  | drop (v : Value)
  /-- To have a type as a value. -/
  | typeValue (ty : TypeRef)
  | newClass (name : String) (base : Option Value)
  | newInstance (cls : Value)
  /-- To place contents made of values of the caller's own. -/
  | allocate (contents : Payload)
  /-- To append an item to the list in a slot. -/
  | push (list : Slot) (item : Value)
  /-- To put an item in the place of another in the list in a slot. -/
  | replace (list : Slot) (index : Nat) (item : Value)
  | copy (v : Value)
  | fingerprint (v : Value)
  | compare (mode : Mode) (a b : Value) (op : Operator)
  | compareHere (mode : Mode) (a b : Value) (op : Operator)
  | compareByFallback (mode : Mode) (a b : Value) (op : Operator)
  /-- To enter one level of nesting. -/
  | enter
  /-- To leave one level of nesting. -/
  | leave

namespace Request

/-- The values that the caller hands over. -/
def takes : Request → List Value
  | take v | drop v => [v]
  | allocate contents => contents.parts
  | push _ item | replace _ _ item => [item]
  | _ => []

/-- The values that are only looked at. -/
def looksAt : Request → List Value
  | clone v | copy v | fingerprint v | newInstance v => [v]
  | typeValue (.userClass s) => [.ref s]
  | newClass _ base => base.toList
  | push list _ | replace list .. => [.ref list]
  | compare _ a b _ | compareHere _ a b _ | compareByFallback _ a b _ => [a, b]
  | _ => []

/-- Whether a list has a place for the item that is handed over. -/
def FindsPlace (h : Heap) : Request → Prop
  | push list _ => ∃ items, h.find? list = some (.list items)
  | replace list index _ => ∃ items, h.find? list = some (.list items) ∧ index < items.length
  | _ => True

/-- What is done, with the values that the caller receives.  The item that was replaced is one. -/
def perform : Request → Action (List Value)
  | build o => List.singleton <$> o.build
  | take v => (fun _ => []) <$> takeObject v
  | clone v => List.singleton <$> Action.retain v
  | drop v => (fun _ => []) <$> Action.release [v]
  | typeValue ty => List.singleton <$> ValueHeap.typeValue ty
  | newClass name base => List.singleton <$> ValueHeap.newClass name base
  | newInstance cls => List.singleton <$> ValueHeap.newInstance cls
  | allocate contents => List.singleton <$> Action.allocate contents
  | push list item => (fun _ => []) <$> Action.change fun h => h.pushItem list item
  | replace list index item =>
    Option.toList <$> Action.change fun h => h.replaceItem list index item
  | copy v => List.singleton <$> deepCopy v
  | fingerprint v => (fun _ => []) <$> deepHash v
  | compare mode a b op => (fun _ => []) <$> richCompare mode a b op
  | compareHere mode a b op => (fun _ => []) <$> richCompareHere mode a b op
  | compareByFallback mode a b op => (fun _ => []) <$> ValueHeap.compareByFallback mode a b op
  | enter => fun h =>
    match h.enter with
    | .ok k => ⟨.ok [], k, []⟩
    | .error e => ⟨.error (.error (.resource e)), h, []⟩
  | leave => fun h => ⟨.ok [], h.leave, []⟩

end Request

/-! ## Custody -/

/-- A heap, and the values that the caller owns. -/
structure Custody where
  heap : Heap
  owned : Multiset Value

/-- The caller owns what it hands over, what is looked at is in use, and contents are such as a
caller can put together. -/
structure Request.Backed (r : Request) (c : Custody) : Prop where
  takes : (r.takes : Multiset Value) ≤ c.owned
  looksAt : ∀ v ∈ r.looksAt, c.heap.Names v
  contents : ∀ p, r = .allocate p → p.isOpen = true

/-- An item finds its place as well.  A list that is told to replace an item that it does not have
stays as it is, and drops the item that it was given without giving back its reference.  So a caller
that accounts for what it owns looks at the length of the list first. -/
structure Request.Permitted (r : Request) (c : Custody) : Prop extends r.Backed c where
  place : r.FindsPlace c.heap

/-- Anybody may have a value built. -/
theorem Request.permitted_build (o : Object) (c : Custody) : (build o).Permitted c where
  takes := Multiset.zero_le c.owned
  looksAt _ hv := by cases hv
  contents _ hp := by cases hp
  place := trivial

/-- The heap that a request leaves, and what the caller owns after it has received values. -/
def Custody.after (c : Custody) (r : Request) (received : List Value) : Custody :=
  ⟨(r.perform c.heap).heap, c.owned - r.takes + received⟩

/-- What can come about by requests, from a heap without slots.  After an error the caller has
received nothing, and what it handed over is gone. -/
inductive Reachable (budget : Budget) : Custody → Prop where
  | start : Reachable budget ⟨Heap.empty budget, 0⟩
  | result {c : Custody} {r : Request} (received : List Value) (hc : Reachable budget c)
      (hr : r.Permitted c) (hok : (r.perform c.heap).result = .ok received) :
      Reachable budget (c.after r received)
  | error {c : Custody} {r : Request} {e : RunError} (hc : Reachable budget c)
      (hr : r.Permitted c) (herr : (r.perform c.heap).result = .error (.error e)) :
      Reachable budget (c.after r [])

end ValueHeap
