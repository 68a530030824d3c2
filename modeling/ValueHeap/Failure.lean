import ValueHeap.Operator

/-!
# What can go wrong

An operation can fail in two ways.  It reports an *error* when what it was asked for is not
allowed: a list as a key, an ordering of two things that have none, too deep a nesting.  It meets a
*fault* when a promise of its caller is broken, such as the use of a slot after its release; a
fault is not handled anywhere on its way out, so what the operation held at that moment is not
given back.

## What is here

* `Cause` — why an operation reports an error, with the kind and the text a caller sees.
* `ResourceError` — a limit that was exceeded, with the limit and the count that went over it.
* `RunError` — one or the other.
* `Fault` — a broken promise, and its text.
* `Failure` — an error or a fault.
-/

set_option autoImplicit false

namespace ValueHeap

/-! ## Kinds of exceptions -/

/-- The kind of exception that a caller sees. -/
inductive ExceptionKind where
  | typeError
  | unsupportedTypeError
  | valueError
  | recursionError
  | memoryError
deriving DecidableEq

namespace ExceptionKind

/-- Every kind. -/
def all : List ExceptionKind :=
  [typeError, unsupportedTypeError, valueError, recursionError, memoryError]

/-- The name of a kind. -/
def name : ExceptionKind → String
  | typeError => "TypeError"
  | unsupportedTypeError => "UnsupportedTypeError"
  | valueError => "ValueError"
  | recursionError => "RecursionError"
  | memoryError => "MemoryError"

/-- The kind of that name, if there is one. -/
def ofName? (text : String) : Option ExceptionKind :=
  all.find? fun kind => kind.name == text

/-- Whether a handler for `handler` catches the kind.  An unsupported type is a type error too. -/
def isSubclassOf (kind handler : ExceptionKind) : Bool :=
  kind == handler || (kind == unsupportedTypeError && handler == typeError)

end ExceptionKind

/-- An exception as a caller sees it. -/
structure PlainException where
  /-- Its kind. -/
  kind : ExceptionKind
  /-- Its text, if it has one. -/
  text : Option String
deriving DecidableEq

/-- The kind, and the text behind a colon. -/
def PlainException.display (e : PlainException) : String :=
  match e.text with
  | some text => e.kind.name ++ ": " ++ text
  | none => e.kind.name

/-! ## Causes of errors -/

/-- The structural operations that not every type supports. -/
inductive StructuralOperation where
  | deepCopy
  | deepHash
deriving DecidableEq

/-- The name of a structural operation. -/
def StructuralOperation.name : StructuralOperation → String
  | deepCopy => "deep_copy"
  | deepHash => "deep_hash"

/-- Why an operation reports an error. -/
inductive Cause where
  /-- An ordering of two values that have none in strict mode. -/
  | unordered (op : Operator) (left right : String)
  /-- An ordering beside a complex number. -/
  | complexOrdering
  /-- A key or an element of a type without a key hash. -/
  | unhashable (type : String)
  /-- A type that a structural operation does not handle. -/
  | unsupported (operation : StructuralOperation) (type : String)
  /-- A range that stands still. -/
  | zeroStep
  /-- A stand-in for a value where a value is needed. -/
  | notConvertible
  /-- An integer with too many digits to be written. -/
  | tooManyDigits (limit : Nat)
  /-- A comparison nested too deeply. -/
  | comparisonTooDeep
  /-- A base of a new class that is not a class. -/
  | badBase (type : String)
  /-- A class of a new instance that is not a class. -/
  | notAClass (type : String)
  /-- An exception of a caller's own making. -/
  | custom (exception : PlainException)
deriving DecidableEq

/-- The kind of exception for a cause. -/
def Cause.kind : Cause → ExceptionKind
  | unordered .. | complexOrdering | unhashable _ | notConvertible | badBase _ | notAClass _ =>
    .typeError
  | unsupported .. => .unsupportedTypeError
  | zeroStep | tooManyDigits _ => .valueError
  | comparisonTooDeep => .recursionError
  | custom e => e.kind

/-- The text for a cause. -/
def Cause.text : Cause → Option String
  | unordered op left right =>
    some s!"'{op.symbol}' not supported between instances of '{left}' and '{right}'"
  | complexOrdering => some "no ordering relation is defined for complex numbers"
  | unhashable type => some s!"unhashable type: '{type}'"
  | unsupported operation type => some s!"{operation.name} does not implement: {type}"
  | zeroStep => some "range() arg 3 must not be zero"
  | notConvertible => some "Repr objects cannot be converted to values"
  | tooManyDigits limit =>
    some s!"Exceeds the limit ({limit} digits) for integer string conversion"
  | comparisonTooDeep => some "maximum recursion depth exceeded in comparison"
  | badBase type => some s!"base must be a class, not '{type}'"
  | notAClass type => some s!"'{type}' object is not a user class"
  | custom e => e.text

/-- The exception for a cause. -/
def Cause.toException (c : Cause) : PlainException := ⟨c.kind, c.text⟩

/-! ## Limits exceeded -/

/-- A limit that was exceeded. -/
inductive ResourceError where
  /-- One allocation too many. -/
  | allocation (limit count : Nat)
  /-- Too much memory in use. -/
  | memory (limit used : Nat)
  /-- One level of nesting too many. -/
  | recursion (limit depth : Nat)
deriving DecidableEq

namespace ResourceError

/-- The text for an exceeded limit. -/
def text : ResourceError → String
  | allocation limit count => s!"allocation limit exceeded: {count} > {limit}"
  | memory limit used => s!"memory limit exceeded: {used} bytes > {limit} bytes"
  | recursion .. => "maximum recursion depth exceeded"

/-- The kind of exception for an exceeded limit. -/
def kind : ResourceError → ExceptionKind
  | allocation .. | memory .. => .memoryError
  | recursion .. => .recursionError

/-- The exception for an exceeded limit. -/
def toException (e : ResourceError) : PlainException := ⟨e.kind, some e.text⟩

end ResourceError

/-! ## Errors -/

/-- What an operation reports: a cause, or a limit that was exceeded. -/
inductive RunError where
  | raised (cause : Cause)
  | resource (error : ResourceError)
deriving DecidableEq

namespace RunError

/-- The exception that a caller sees. -/
def toException : RunError → PlainException
  | raised cause => cause.toException
  | resource error => error.toException

/-- The kind of that exception. -/
def kind (e : RunError) : ExceptionKind := e.toException.kind

/-- The kind and the text. -/
def display (e : RunError) : String := e.toException.display

/-- Whether a handler for `handler` catches the error. -/
def isCaughtBy (e : RunError) (handler : ExceptionKind) : Bool :=
  e.kind.isSubclassOf handler

end RunError

/-! ## Faults -/

/-- What a slot was wanted for. -/
inductive Access where
  | read
  | release
  | edit
deriving DecidableEq

/-- How an access calls itself. -/
def Access.name : Access → String
  | read => "Heap"
  | release => "Heap::dec_ref"
  | edit => "Heap::get_mut"

/-- A broken promise of a caller. -/
inductive Fault where
  /-- A slot that was never given out. -/
  | missing (access : Access)
  /-- A slot whose value was released. -/
  | freed (access : Access)
  /-- An instance whose class is something else by now. -/
  | notAClass (found : String)
  /-- An amount of memory beyond the largest word. -/
  | overflow
  /-- A walk along references that never ends. -/
  | endless
deriving DecidableEq

/-- The text for a fault. -/
def Fault.text : Fault → String
  | missing access => access.name ++ ": slot missing"
  | freed access => access.name ++ ": object already freed"
  | notAClass found =>
    "internal error: entered unreachable code: TypeRef::Class points at " ++ found
  | overflow => "attempt to add with overflow"
  | endless => "endless chain of references"

/-- An error or a fault. -/
inductive Failure where
  | error (e : RunError)
  | fault (f : Fault)
deriving DecidableEq

end ValueHeap
