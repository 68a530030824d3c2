import ValueHeap.Heap.TypeRef
import ValueHeap.Outcome

/-!
# Fingerprints

A fingerprint tells whether a value is still made the way it was.  Every value starts from a header
that depends on its type.  A text, a byte string and a float roll their bytes into it, an integer
its decimal text; a container folds the fingerprints of its parts into it with exclusive or, so the
order of the parts does not show.  Instances of classes have no fingerprint.

## What is here

* `Fingerprint.rolling` — the rolling hash of bytes.
* `Fingerprint.ofType` and `Fingerprint.header` — the fingerprint of a type, and where a value of
  the type starts from.
* `Fingerprint.fold` and `Fingerprint.foldEntries` — the parts of a container.
* `Fingerprint.within` — the fingerprint of a value while so many levels of nesting are left, and
  `Heap.fingerprint`, which takes what the heap has left.
-/

set_option autoImplicit false

namespace ValueHeap

namespace Fingerprint

/-- Rolls bytes into a hash: it is multiplied and takes in the next byte, which counts as a signed
number. -/
def rolling (start : Int64) (data : List UInt8) : Int64 :=
  data.foldl (fun h b => (h * 1000003) ^^^ b.toInt8.toInt64) start

/-- Rolls the UTF-8 bytes of a text into a hash. -/
def rollingText (start : Int64) (text : String) : Int64 :=
  rolling start text.toUTF8.data.toList

/-- What tells the values of one type from those of another. -/
def salt (ty : BuiltinType) : Int64 :=
  rollingText 0x345678 ty.name

/-- The fingerprint of a type of that name. -/
def ofType (name : String) : Int64 :=
  rollingText (salt .type) name

/-- Where a value of the type starts from. -/
def header (ty : BuiltinType) : Int64 :=
  salt ty ^^^ ofType ty.name

/-- The fingerprint of an integer that is written in decimal digits.  One with too many digits adds
nothing to its header, and the error of writing it is reported and then ignored. -/
def ofInt (limit : Option Nat) (n : Int) : Answer Int64 :=
  match Decimal.text? limit n with
  | some text => pure (header .int ^^^ rollingText (header .str) text)
  | none => do
    Answer.report (.absorbed (.raised (.tooManyDigits (limit.getD 0))))
    pure (header .int)

/-- Folds the fingerprints of values into a hash, in order. -/
def fold (part : Value → Answer Int64) (acc : Int64) : List Value → Answer Int64
  | [] => pure acc
  | v :: rest => do
    let word ← part v
    fold part (acc ^^^ word) rest

/-- Folds the fingerprints of keys and values into a hash, each key before its value. -/
def foldEntries (part : Value → Answer Int64) (acc : Int64) : List Entry → Answer Int64
  | [] => pure acc
  | e :: rest => do
    let key ← part e.key.value
    let value ← part e.value
    foldEntries part (acc ^^^ (key ^^^ value)) rest

/-- The fingerprint of a value, where `inside` gives those of the parts of a container, and is
missing when no level is left for them. -/
def ofValue (h : Heap) (levels : Nat) (inside : Option (Value → Answer Int64)) :
    Value → Answer Int64
  | .none => pure (header .noneType)
  | .ellipsis => pure (header .ellipsis)
  | .bool _ => pure (header .bool)
  | .int n => ofInt h.budget.digitLimit n.toInt
  | .float x => pure (rolling (header .float) x.bytes)
  | .builtin ty => pure (ofType ty.name)
  | .ref s => do
    match ← Answer.look levels (h.read s) with
    | .str text => pure (rollingText (header .str) text)
    | .bytes data => pure (rolling (header .bytes) data)
    | .longInt n => ofInt h.budget.digitLimit n
    | .complex re im => pure (rolling (header .complex) (re.bytes ++ im.bytes))
    | .range _ => pure (header .range)
    | .slice .. => pure (header .slice)
    | .userClass name _ => pure (ofType name)
    | .userInstance cls => do
      let name ← Answer.look levels (h.nameOfType (.userClass cls))
      Answer.raise (.unsupported .deepHash name)
    | .list items => contents (fun part => fold part (header .list) items)
    | .tuple items => contents (fun part => fold part (header .tuple) items)
    | .set elements => contents (fun part => fold part (header .set) (elements.map (·.value)))
    | .dict entries => contents (fun part => foldEntries part (header .dict) entries)
where
  /-- The contents of a container, one level further down. -/
  contents (x : (Value → Answer Int64) → Answer Int64) : Answer Int64 :=
    match inside with
    | some part => x part
    | none => Answer.refuse h.budget.depthLimit (.resource h.budget.noLevelLeft)

/-- The fingerprint of a value while so many levels are left. -/
def within (h : Heap) : Nat → Value → Answer Int64
  | 0 => ofValue h 0 none
  | levels + 1 => ofValue h (levels + 1) (some (within h levels))

end Fingerprint

/-- The fingerprint of a value. -/
def deepHash (v : Value) : Action Int64 :=
  Action.consult fun h levels => Fingerprint.within h levels v

end ValueHeap
