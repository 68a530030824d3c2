import ValueHeap.Compare.Containers
import ValueHeap.Compare.Fallback
import ValueHeap.Numeric.Number

/-!
# Rich comparison

Two values compare by the rule of a type: that of the left operand first, unless the type of the
right operand lies below it.  A rule may leave a question open, and then the other operand's type
gets its turn with the operator turned around.  Two dicts, whose rule only knows equality, have an
order of their own in total mode.  Whatever is still open goes to the fallback.

Each comparison takes one level of nesting, and the comparisons of parts take further ones.  Two
machine integers are compared on the spot.

## What is here

* `Compare.typeRule` — what the rule of the left operand's type says, if it says anything.
* `Compare.dispatch` — the order in which rules are asked.
* `Compare.within` — rich comparison while so many levels are left.
* `richCompare`, `richCompareHere` and `compareByFallback` — the three comparisons as operations on
  a heap.  The second takes no level for the two values themselves.
-/

set_option autoImplicit false

namespace ValueHeap

namespace Compare

/-- The number that a value is, if it is one. -/
def numberOf (h : Heap) : Value → Except Fault (Option Number)
  | .bool b => .ok (some (.int (if b then 1 else 0)))
  | .int n => .ok (some (.int n.toInt))
  | .float x => .ok (some (.float x))
  | .ref s =>
    (h.read s).map fun
      | .longInt n => some (.int n)
      | .complex re im => some (.complex re im)
      | _ => none
  | _ => .ok none

/-- The rule of what is only equal to itself: identity settles equality and nothing else. -/
def identityRule (a b : Value) (op : Operator) : Option Bool :=
  if a.isIdentical b && op.isEquality then some (op == .eq) else none

/-- The rule for two numbers. -/
def numberRule (a b : Number) (op : Operator) : Answer (Option Bool) :=
  if (a.isComplex || b.isComplex) && !op.isEquality then Answer.raise .complexOrdering
  else pure (some (Number.holds op a b))

/-- The rule for contents on both sides. -/
def payloadRule (judge : Judge) (op : Operator) : Payload → Payload → Answer (Option Bool)
  | .str a, .str b => pure (some (op.holds (compare a b)))
  | .bytes a, .bytes b => pure (some (op.holds (compare a b)))
  | .list a, .list b => some <$> sequences judge op a b
  | .tuple a, .tuple b => some <$> sequences judge op a b
  | .slice a b c, .slice d e f => some <$> sequences judge op [a, b, c] [d, e, f]
  | .dict a, .dict b =>
    if op.isEquality then (fun equal => some (equal == (op == .eq))) <$> dictsEqual judge a b
    else pure none
  | .set a, .set b => some <$> sets judge op a b
  | .range a, .range b => pure (some (op.holds (a.order b)))
  | _, _ => pure none

/-- The rule for contents on the left and any value on the right. -/
def referenceRule (h : Heap) (levels : Nat) (judge : Judge) (op : Operator) (contents : Payload)
    (left right : Value) : Answer (Option Bool) := do
  let other ←
    match right with
    | .ref t => some <$> Answer.look levels (h.read t)
    | _ => pure none
  match contents, other with
  | .userClass .., _ | .userInstance _, _ => pure (identityRule left right op)
  | p, some q => payloadRule judge op p q
  | _, none => pure none

/-- What the rule of the left operand's type says, if it says anything. -/
def typeRule (h : Heap) (levels : Nat) (judge : Judge) (left right : Value) (op : Operator) :
    Answer (Option Bool) := do
  match ← Answer.look levels (numberOf h left) with
  | some a =>
    match ← Answer.look levels (numberOf h right) with
    | some b => numberRule a b op
    | none => pure none
  | none =>
    match left with
    | .ref s => do
      let contents ← Answer.look levels (h.read s)
      referenceRule h levels judge op contents left right
    | _ => pure (identityRule left right op)

/-- The order that two dicts have in total mode. -/
def threeWayRule (h : Heap) (mode : Mode) (levels : Nat) (judge : Judge) (a b : Value)
    (op : Operator) : Answer (Option Bool) :=
  match mode, a, b with
  | .total, .ref s, .ref t => do
    let p ← Answer.look levels (h.read s)
    let q ← Answer.look levels (h.read t)
    match p, q with
    | .dict x, .dict y => do
      let order ← dictOrder judge x y
      pure (some (op.holds order))
    | _, _ => pure none
  | _, _, _ => pure none

/-- Asks the rules in their order.  The judge compares parts, one level further down. -/
def dispatch (h : Heap) (mode : Mode) (levels : Nat) (judge : Judge) (a b : Value)
    (op : Operator) : Answer Bool := do
  let left ← Answer.look levels (h.typeOf a)
  let right ← Answer.look levels (h.typeOf b)
  if left = right then
    Answer.decideOr (typeRule h levels judge a b op) <|
      Answer.decideOr (threeWayRule h mode levels judge a b op) <|
        fallback h mode levels a b op
  else if ← Answer.look levels (h.isSubtype right left) then
    Answer.decideOr (typeRule h levels judge b a op.swapped) <|
      Answer.decideOr (typeRule h levels judge a b op) <|
        fallback h mode levels a b op
  else
    Answer.decideOr (typeRule h levels judge a b op) <|
      Answer.decideOr (typeRule h levels judge b a op.swapped) <|
        fallback h mode levels a b op

/-- Compares two machine integers on the spot, and hands every other pair on. -/
def unlessInts (judge : Judge) : Judge
  | .int m, .int n, op => pure (op.holds (compare m.toInt n.toInt))
  | a, b, op => judge a b op

/-- Rich comparison while so many levels are left. -/
def within (h : Heap) (mode : Mode) : Nat → Judge
  | 0, a, b, op =>
    unlessInts (fun _ _ _ => Answer.refuse h.budget.depthLimit (.raised .comparisonTooDeep)) a b op
  | levels + 1, a, b, op => unlessInts (dispatch h mode levels (within h mode levels)) a b op

end Compare

/-- Compares two values. -/
def richCompare (mode : Mode) (a b : Value) (op : Operator) : Action Bool :=
  Action.consult fun h levels => Compare.within h mode levels a b op

/-- Compares two values without taking a level for them.  Their parts take levels as ever. -/
def richCompareHere (mode : Mode) (a b : Value) (op : Operator) : Action Bool :=
  Action.consult fun h levels =>
    Compare.dispatch h mode levels (Compare.within h mode levels) a b op

/-- Compares two values by the fallback rules alone. -/
def compareByFallback (mode : Mode) (a b : Value) (op : Operator) : Action Bool :=
  Action.consult fun h levels => Compare.fallback h mode levels a b op

end ValueHeap
