import ValueHeap.Outcome

/-!
# Finding a key

A key is found by its hash first: only stored keys whose hash is that of the wanted key are looked
at, in the order in which they went in.  Of these the first that is the same value or compares equal
is the one.  A comparison that fails ends the search.

## What is here

* `Compare.Judge` — a comparison of two values, as the containers call it for their parts.
* `Compare.sameOrEqual` — whether two values are identical or else compare equal.
* `Compare.position` — the place of a key among stored keys.
* `Compare.valueUnder` — the value under a key of a dict.
-/

set_option autoImplicit false

namespace ValueHeap.Compare

/-- A comparison of two values under an operator. -/
abbrev Judge := Value → Value → Operator → Answer Bool

/-- Whether two values are the same value, or else compare equal. -/
def sameOrEqual (judge : Judge) (a b : Value) : Answer Bool :=
  if a.isIdentical b then pure true else judge a b .eq

/-- The place of the first stored key that has the hash of the wanted one and is the same value as
it or equal to it.  The stored key stands on the left of a comparison. -/
def position (judge : Judge) (wanted : HashedKey) : List HashedKey → Answer (Option Nat)
  | [] => pure none
  | stored :: rest => do
    let found ←
      if stored.hash = wanted.hash then sameOrEqual judge stored.value wanted.value
      else pure false
    if found then pure (some 0)
    else
      let place ← position judge wanted rest
      pure (place.map (· + 1))

/-- The value under a key of a dict, if the key is there. -/
def valueUnder (judge : Judge) (wanted : HashedKey) (entries : List Entry) :
    Answer (Option Value) := do
  let place ← position judge wanted (entries.map Entry.key)
  pure (place.bind fun i => entries[i]?.map Entry.value)

/-- Whether an element is in a set. -/
def contains (judge : Judge) (wanted : HashedKey) (elements : List HashedKey) : Answer Bool := do
  let place ← position judge wanted elements
  pure place.isSome

end ValueHeap.Compare
