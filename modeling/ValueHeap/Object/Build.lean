import ValueHeap.Compare.Rich
import ValueHeap.KeyHash
import ValueHeap.Object.Basic

/-!
# Building values from objects

A value is built from an object part by part, from left to right.  When a part cannot be built, the
parts before it are given back in the order in which they were built, so that nothing stays behind.

A repeated key of a dict keeps its first place and its first form, and takes the last value; a
repeated element of a set is dropped.  Keys are repeated when they are the same or compare equal.

## What is here

* `Build.hashOf` — the hash of a key, which must have one.
* `Build.find` — the place of a key among those that are in already.
* `Build.insert` and `Build.add` — one entry more for a dict, one element more for a set.
* `Object.build` — the value for an object.
-/

set_option autoImplicit false

namespace ValueHeap

namespace Build

/-- The hash of a key, which must have one. -/
def hashOf (v : Value) : Action UInt64 := do
  match ← Action.look fun h => h.keyHash v with
  | some hash => pure hash
  | none => do
    let name ← Action.look fun h => h.typeName v
    Action.raise (.unhashable name)

/-- The place of a key among stored ones, by equality in total mode. -/
def find (wanted : HashedKey) (stored : List HashedKey) : Action (Option Nat) :=
  Action.silently <| Action.consult fun h levels =>
    Compare.position (Compare.within h .total levels) wanted stored

/-- Puts a value under a key that is hashed already.  A key that is there keeps its place, and the
value that was under it is given back together with the new key. -/
def insert (done : List Entry) (key : HashedKey) (value : Value) : Action (List Entry) := do
  let place ← Action.onError (find key (done.map Entry.key)) (Action.release [key.value, value])
  match place.bind fun i => done[i]?.map fun e => (i, e) with
  | some (i, e) => do
    Action.release [e.value]
    Action.release [key.value]
    pure (done.set i { e with value })
  | none => pure (done ++ [⟨key, value⟩])

/-- Adds an element, which is given back if it is there already. -/
def add (done : List HashedKey) (value : Value) : Action (List HashedKey) := do
  let hash ← Action.onError (hashOf value) (Action.release [value])
  let place ← Action.onError (find ⟨value, hash⟩ done) (Action.release [value])
  if place.isSome then do
    Action.release [value]
    pure done
  else pure (done ++ [⟨value, hash⟩])

/-- The value of an integer of any size: a machine integer if it fits one. -/
def integer (n : Int) : Action Value :=
  if n = (Int64.ofInt n).toInt then pure (.int (Int64.ofInt n)) else Action.allocate (.longInt n)

end Build

namespace Object

open Build

mutual

/-- The value for an object. -/
def build : Object → Action Value
  | none => pure .none
  | ellipsis => pure .ellipsis
  | bool b => pure (.bool b)
  | int n => pure (.int n)
  | bigInt n => integer n
  | float x => pure (.float x)
  | complex re im => Action.allocate (.complex re im)
  | str text => Action.allocate (.str text)
  | bytes data => Action.allocate (.bytes data)
  | list items => do
    let values ← buildItems [] items
    Action.allocate (.list values)
  | tuple items => do
    let values ← buildItems [] items
    Action.allocate (.tuple values)
  | dict entries => do
    let stored ← buildEntries [] entries
    Action.allocate (.dict stored)
  | set elements => do
    let stored ← buildElements [] elements
    Action.allocate (.set stored)
  | range start stop step =>
    match Progression.make? start stop step with
    | some p => Action.allocate (.range p)
    | Option.none => Action.raise .zeroStep
  | slice start stop step => do
    let first ← build start
    let second ← Action.onError (build stop) (Action.release [first])
    let third ← Action.onError (build step) (Action.release [first, second])
    Action.allocate (.slice first second third)
  | type ty => pure (.builtin ty)
  | standIn _ => Action.raise .notConvertible

/-- Values for objects, behind those that are done. -/
def buildItems (done : List Value) : List Object → Action (List Value)
  | [] => pure done
  | o :: rest => do
    let value ← Action.onError (build o) (Action.release done)
    buildItems (done ++ [value]) rest

/-- Entries for pairs of objects, behind those that are done. -/
def buildEntries (done : List Entry) : List (Object × Object) → Action (List Entry)
  | [] => pure done
  | (k, v) :: rest => do
    let stored ← Action.onError
      (do
        let key ← build k
        let hash ← Action.onError (hashOf key) (Action.release [key])
        let value ← Action.onError (build v) (Action.release [key])
        insert done ⟨key, hash⟩ value)
      (Action.release (done.flatMap Entry.parts))
    buildEntries stored rest

/-- Elements for objects, behind those that are done. -/
def buildElements (done : List HashedKey) : List Object → Action (List HashedKey)
  | [] => pure done
  | o :: rest => do
    let stored ← Action.onError
      (do
        let value ← build o
        add done value)
      (Action.release (done.map HashedKey.value))
    buildElements stored rest

end

end Object

end ValueHeap
