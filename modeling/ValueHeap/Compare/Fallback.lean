import ValueHeap.Heap.TypeRef
import ValueHeap.Outcome

/-!
# Comparing what no type compares

When neither operand knows how to compare itself with the other, the mode decides.  In total mode
every two values are ordered, so that sorting never fails: by identity within a type, and otherwise
`None` first, numbers next, and everything else by the spelling of its type.  In strict mode
equality is identity, and there is no order.

## What is here

* `Compare.fallbackOrder` — the order of any two values in total mode, with the rule that gave it.
* `Compare.fallback` — what an operator says of two values in either mode.  Each success is
  reported with its rule.
-/

set_option autoImplicit false

namespace ValueHeap.Compare

/-- The order of two values of different types, where `first` and `second` are these types. -/
def typeOrder (h : Heap) (first second : TypeRef) : Except Fault (FallbackRule × Ordering) :=
  if first = .builtin .noneType then .ok (.noneFirst, .lt)
  else if second = .builtin .noneType then .ok (.noneFirst, .gt)
  else
    match first.isNumeric, second.isNumeric with
    | true, true => .ok (.numericTypeIdentity, first.order second)
    | true, false => .ok (.numericFirst, .lt)
    | false, true => .ok (.numericFirst, .gt)
    | false, false => do
      let left ← h.nameOfType first
      let right ← h.nameOfType second
      match compare left right with
      | .eq => .ok (.typeIdentity, first.order second)
      | o => .ok (.typeName, o)

/-- The order of any two values, with the rule that gave it. -/
def fallbackOrder (h : Heap) (a b : Value) : Except Fault (FallbackRule × Ordering) :=
  if a.isIdentical b then .ok (.identical, .eq)
  else do
    let first ← h.typeOf a
    let second ← h.typeOf b
    if first = second then .ok (.sameTypeIdentity, a.identity.order b.identity)
    else typeOrder h first second

/-- What the fallback rules say of two values, with so many levels left. -/
def fallback (h : Heap) (mode : Mode) (levels : Nat) (a b : Value) (op : Operator) :
    Answer Bool :=
  match mode with
  | .total => do
    let (rule, order) ← Answer.look levels (fallbackOrder h a b)
    Answer.report (.fellBack op rule (op.holds order))
    pure (op.holds order)
  | .strict =>
    if op.isEquality then do
      let result := a.isIdentical b == (op == .eq)
      Answer.report (.fellBack op .strict result)
      pure result
    else do
      let left ← Answer.look levels (h.typeName a)
      let right ← Answer.look levels (h.typeName b)
      Answer.raise (.unordered op left right)

end ValueHeap.Compare
