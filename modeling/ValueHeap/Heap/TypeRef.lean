import ValueHeap.Heap.Basic

/-!
# Types of values

The type of a value is a builtin type, or the class that an instance belongs to.  A class is named
and may inherit from another, so spelling a type and going up from it may take a look at the heap.

## What is here

* `TypeRef` — a builtin type or the slot of a class, and their order (`TypeRef.order`).
* `Heap.typeOf` and `Heap.nameOfType` — the type of a value, and the spelling of a type.
* `Heap.isSubtype` — whether one type lies below another: a builtin type below those it inherits
  from, a class below `object` and the classes on its chain of bases.
* `Heap.asType?` — the type that a value is, if it is one.
-/

set_option autoImplicit false

namespace ValueHeap

/-- A builtin type, or the class in a slot. -/
inductive TypeRef where
  | builtin (ty : BuiltinType)
  | userClass (slot : Slot)
deriving DecidableEq

namespace TypeRef

/-- Builtin types by rank, and after them the classes by slot. -/
def order : TypeRef → TypeRef → Ordering
  | builtin s, builtin t => compare s.rank t.rank
  | builtin _, userClass _ => .lt
  | userClass _, builtin _ => .gt
  | userClass m, userClass n => compare m n

/-- Whether the values of the type are numbers. -/
def isNumeric : TypeRef → Bool
  | builtin ty => ty.isNumeric
  | userClass _ => false

end TypeRef

/-- The type of a value with these contents. -/
def Payload.typeRef : Payload → TypeRef
  | str _ => .builtin .str
  | bytes _ => .builtin .bytes
  | longInt _ => .builtin .int
  | complex .. => .builtin .complex
  | list _ => .builtin .list
  | tuple _ => .builtin .tuple
  | dict _ => .builtin .dict
  | set _ => .builtin .set
  | range _ => .builtin .range
  | slice .. => .builtin .slice
  | userClass .. => .builtin .type
  | userInstance cls => .userClass cls

namespace Heap

/-- The type of a value. -/
def typeOf (h : Heap) : Value → Except Fault TypeRef
  | .none => .ok (.builtin .noneType)
  | .ellipsis => .ok (.builtin .ellipsis)
  | .bool _ => .ok (.builtin .bool)
  | .int _ => .ok (.builtin .int)
  | .float _ => .ok (.builtin .float)
  | .builtin _ => .ok (.builtin .type)
  | .ref s => (h.read s).map Payload.typeRef

/-- The spelling of a type. -/
def nameOfType (h : Heap) : TypeRef → Except Fault String
  | .builtin ty => .ok ty.name
  | .userClass s =>
    match h.read s with
    | .ok (.userClass name _) => .ok name
    | .ok other => .error (.notAClass other.kindName)
    | .error f => .error f

/-- The spelling of the type of a value. -/
def typeName (h : Heap) (v : Value) : Except Fault String := do
  h.nameOfType (← h.typeOf v)

/-- Whether the chain of bases from `s` on meets `target`, in at most so many steps.  What is not a
class ends the chain. -/
def chainMeets (h : Heap) (target : Slot) : Nat → Slot → Except Fault Bool
  | 0, _ => .error .endless
  | steps + 1, s =>
    if s = target then .ok true
    else
      match h.read s with
      | .ok (.userClass _ (some base)) => h.chainMeets target steps base
      | .ok _ => .ok false
      | .error f => .error f

/-- Whether a type is another one or lies below it.  A chain that takes more steps than there are
slots has come around. -/
def isSubtype (h : Heap) : TypeRef → TypeRef → Except Fault Bool
  | .builtin s, .builtin t => .ok (s.isSubtypeOf t)
  | .builtin _, .userClass _ => .ok false
  | .userClass _, .builtin t => .ok (t == .object)
  | .userClass s, .userClass t => h.chainMeets t (h.cells.size + 1) s

/-- The type that a value is, if it is a type. -/
def asType? (h : Heap) : Value → Except Fault (Option TypeRef)
  | .builtin ty => .ok (some (.builtin ty))
  | .ref s => (h.read s).map fun p => if p.isClass then some (.userClass s) else none
  | _ => .ok none

end Heap

end ValueHeap
