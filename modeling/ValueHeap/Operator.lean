/-!
# Comparison operators, modes and fallback rules

## What is here

* `Operator` — the six operators, with the one for exchanged operands (`Operator.swapped`) and the
  reading of a three-way result (`Operator.holds`).
* `Mode` — what happens to a pair that no type can compare: ordered all the same, or refused.
* `FallbackRule` — the step of the fallback order that settled such a pair, which is reported
  with every use of it.
-/

set_option autoImplicit false

namespace ValueHeap

/-- A comparison operator. -/
inductive Operator where
  | lt
  | le
  | eq
  | ne
  | gt
  | ge
deriving DecidableEq

namespace Operator

/-- The six operators in their usual order. -/
def all : List Operator := [lt, le, eq, ne, gt, ge]

/-- The written form. -/
def symbol : Operator → String
  | lt => "<"
  | le => "<="
  | eq => "=="
  | ne => "!="
  | gt => ">"
  | ge => ">="

/-- The operator that is written so, if there is one. -/
def ofSymbol? (text : String) : Option Operator :=
  all.find? fun op => op.symbol == text

/-- The operator for exchanged operands: `a < b` is `b > a`. -/
def swapped : Operator → Operator
  | lt => gt
  | le => ge
  | gt => lt
  | ge => le
  | eq => eq
  | ne => ne

/-- Whether a three-way result satisfies the operator. -/
def holds : Operator → Ordering → Bool
  | lt, o => o == .lt
  | le, o => o != .gt
  | eq, o => o == .eq
  | ne, o => o != .eq
  | gt, o => o == .gt
  | ge, o => o != .lt

/-- `==` or `!=`. -/
def isEquality (op : Operator) : Bool :=
  op == eq || op == ne

theorem swapped_swapped (op : Operator) : op.swapped.swapped = op := by
  cases op <;> rfl

theorem holds_swapped (op : Operator) (o : Ordering) : op.swapped.holds o.swap = op.holds o := by
  cases op <;> cases o <;> rfl

theorem holds_ne (o : Ordering) : ne.holds o = !eq.holds o := by
  cases o <;> rfl

end Operator

/-- What happens to a pair of values that no type can compare. -/
inductive Mode where
  /-- The pair is ordered by the fallback rules. -/
  | total
  /-- Equality is identity, and the four orderings are refused. -/
  | strict
deriving DecidableEq

/-- The step of the fallback that settled a pair. -/
inductive FallbackRule where
  /-- Both operands are the same value. -/
  | identical
  /-- Same type: ordered by identity. -/
  | sameTypeIdentity
  /-- `None` comes before everything else. -/
  | noneFirst
  /-- A number comes before what is not one. -/
  | numericFirst
  /-- Two numbers of different types: ordered by their types. -/
  | numericTypeIdentity
  /-- Ordered by the spelling of the types. -/
  | typeName
  /-- Types of one spelling: ordered by the types themselves. -/
  | typeIdentity
  /-- Equality by identity in strict mode. -/
  | strict
deriving DecidableEq

/-- The name under which a rule is reported. -/
def FallbackRule.name : FallbackRule → String
  | identical => "Identical"
  | sameTypeIdentity => "SameTypeIdentity"
  | noneFirst => "NoneFirst"
  | numericFirst => "NumericFirst"
  | numericTypeIdentity => "NumericTypeIdentity"
  | typeName => "TypeName"
  | typeIdentity => "TypeIdentity"
  | strict => "Strict"

end ValueHeap
