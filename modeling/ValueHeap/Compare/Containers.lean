import ValueHeap.Compare.Lookup

/-!
# Comparing containers

Containers compare by their parts, which are compared by a judge one level further down.

## What is here

* `Compare.sequences` — lexicographic comparison: the first pair of items that are neither the same
  value nor equal decides, and otherwise the lengths do.
* `Compare.dictsEqual` — dicts are equal when they have as many entries, and every key of one has
  an equal value under it in the other.
* `Compare.dictOrder` — the shorter dict comes first.  Of two equally long ones each has a smallest
  key that the other lacks or has another value under (`Compare.smallestDifference`); these keys
  decide, and then the values under them.
* `Compare.sets` — the operators on sets are the subset relations.
-/

set_option autoImplicit false

namespace ValueHeap.Compare

/-! ## Sequences -/

/-- What an operator says of two sequences, found on the way along both of them. -/
def itemByItem (judge : Judge) (op : Operator) : List Value → List Value → Answer Bool
  | x :: xs, y :: ys => do
    if ← sameOrEqual judge x y then itemByItem judge op xs ys
    else
      match op with
      | .eq => pure false
      | .ne => pure true
      | _ => judge x y op
  | xs, ys => pure (op.holds (compare xs.length ys.length))

/-- What an operator says of two sequences.  Unequal lengths settle equality at once. -/
def sequences (judge : Judge) (op : Operator) (xs ys : List Value) : Answer Bool :=
  if xs.length ≠ ys.length ∧ op.isEquality then pure (op == .ne)
  else itemByItem judge op xs ys

/-! ## Dicts -/

/-- Whether an entry is missing from a dict, or has another value there. -/
def differs (judge : Judge) (e : Entry) (other : List Entry) : Answer Bool := do
  match ← valueUnder judge e.key other with
  | none => pure true
  | some value => do
    let same ← sameOrEqual judge e.value value
    pure !same

/-- Whether every one of these entries is in the other dict, with an equal value. -/
def entriesWithin (judge : Judge) (other : List Entry) : List Entry → Answer Bool
  | [] => pure true
  | e :: rest => do
    if ← differs judge e other then pure false else entriesWithin judge other rest

/-- Whether two dicts are equal. -/
def dictsEqual (judge : Judge) (a b : List Entry) : Answer Bool :=
  if a.length = b.length then entriesWithin judge b a else pure false

/-- The entry with the smallest key among `best` and those of the rest that differ from the other
dict.  A key that is not below the best one so far is not looked up. -/
def smallestFrom (judge : Judge) (other : List Entry) (best : Option Entry) :
    List Entry → Answer (Option Entry)
  | [] => pure best
  | e :: rest => do
    let below ←
      match best with
      | none => pure true
      | some current => judge e.key.value current.key.value .lt
    let better ← if below then differs judge e other else pure false
    smallestFrom judge other (if better then some e else best) rest

/-- The entry of `a` with the smallest key that differs from `b`, if one does. -/
def smallestDifference (judge : Judge) (a b : List Entry) : Answer (Option Entry) :=
  smallestFrom judge b none a

/-- The order of two values by `<` and `==`.  What is neither below nor equal counts as above. -/
def valueOrder (judge : Judge) (a b : Value) : Answer Ordering := do
  if a.isIdentical b then pure .eq
  else if ← judge a b .lt then pure .lt
  else if ← judge a b .eq then pure .eq
  else pure .gt

/-- The order of two dicts. -/
def dictOrder (judge : Judge) (a b : List Entry) : Answer Ordering := do
  if a.length ≠ b.length then pure (compare a.length b.length)
  else
    match ← smallestDifference judge a b with
    | none => pure .eq
    | some first =>
      match ← smallestDifference judge b a with
      | none => pure .eq
      | some second =>
        match ← valueOrder judge first.key.value second.key.value with
        | .eq => valueOrder judge first.value second.value
        | o => pure o

/-! ## Sets -/

/-- Whether all of these elements are in the other set. -/
def elementsWithin (judge : Judge) (other : List HashedKey) : List HashedKey → Answer Bool
  | [] => pure true
  | e :: rest => do
    if ← contains judge e other then elementsWithin judge other rest else pure false

/-- Whether one set is a subset of another.  A larger one is not, whatever is in it. -/
def isSubset (judge : Judge) (a b : List HashedKey) : Answer Bool :=
  if b.length < a.length then pure false else elementsWithin judge b a

/-- What an operator says of two sets. -/
def sets (judge : Judge) (op : Operator) (a b : List HashedKey) : Answer Bool :=
  match op with
  | .eq => if a.length = b.length then isSubset judge a b else pure false
  | .ne => do
    let equal ← if a.length = b.length then isSubset judge a b else pure false
    pure !equal
  | .le => isSubset judge a b
  | .lt => if a.length < b.length then isSubset judge a b else pure false
  | .ge => isSubset judge b a
  | .gt => if b.length < a.length then isSubset judge b a else pure false

end ValueHeap.Compare
