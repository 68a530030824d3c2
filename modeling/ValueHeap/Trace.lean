import ValueHeap.BuiltinType
import ValueHeap.Failure
import ValueHeap.Text.Pad

/-!
# Events and their observers

The structural operations report what they did as events.  A tracer takes the events one by one and
keeps what it wants of them; no operation ever looks at its tracer, so none can depend on it.

## What is here

* `Event` — a container copied, a fallback used, an error absorbed, a limit on nesting met.
* `Tracer` — one that ignores events, one that records them and one that prints a line for each,
  the latter two up to a limit.
* `Tracer.observe` — what a tracer does with an event, and `Tracer.observeAll` with several.
-/

set_option autoImplicit false

namespace ValueHeap

/-- What a structural operation reports. -/
inductive Event where
  /-- A container was copied: its type, its number of entries, and the level it is on. -/
  | copied (ty : BuiltinType) (length depth : Nat)
  /-- The fallback settled a comparison. -/
  | fellBack (op : Operator) (rule : FallbackRule) (result : Bool)
  /-- An error was met on the way and ignored. -/
  | absorbed (error : RunError)
  /-- The limit on nesting was met. -/
  | tooDeep (limit : Nat)
deriving DecidableEq

/-- The line that is printed for an event. -/
def Event.line : Event → String
  | copied ty length depth =>
    s!"  +++ COPY {Text.padRight 12 ty.name} len={length}  depth={depth}"
  | fellBack op rule result =>
    s!"  ??? FALLBACK {Text.padRight 8 op.symbol} rule={rule.name}  -> {result}"
  | absorbed error => s!"  !!! ABSORBED {error.display}"
  | tooDeep limit => s!"  ### DEPTH LIMIT {limit}"

/-- An observer of events. -/
inductive Tracer where
  /-- Ignores every event. -/
  | silent
  /-- Keeps the events, the first ones up to a limit. -/
  | recording (limit : Option Nat) (events : Array Event)
  /-- Prints a line for each event, and one more line when the limit is first exceeded.  It counts
  the events up to that point. -/
  | printing (limit : Option Nat) (seen : Nat) (lines : Array String)

namespace Tracer

/-- The line that closes a printed trace. -/
def closingLine (limit : Nat) : String :=
  s!"--- trace limit reached ({limit} events) ---"

/-- Takes an event. -/
def observe (t : Tracer) (e : Event) : Tracer :=
  match t with
  | silent => silent
  | recording limit events =>
    if limit.all (events.size < ·) then recording limit (events.push e) else t
  | printing none seen lines => printing none (seen + 1) (lines.push e.line)
  | printing (some limit) seen lines =>
    if seen < limit then printing (some limit) (seen + 1) (lines.push e.line)
    else if seen = limit then printing (some limit) (seen + 1) (lines.push (closingLine limit))
    else t

/-- Takes several events in order. -/
def observeAll (t : Tracer) (es : List Event) : Tracer :=
  es.foldl observe t

/-- The events that were recorded. -/
def events : Tracer → Array Event
  | recording _ events => events
  | _ => #[]

/-- The lines that were printed. -/
def lines : Tracer → Array String
  | printing _ _ lines => lines
  | _ => #[]

theorem observeAll_append (t : Tracer) (es fs : List Event) :
    t.observeAll (es ++ fs) = (t.observeAll es).observeAll fs := by
  simp [observeAll]

end Tracer

end ValueHeap
