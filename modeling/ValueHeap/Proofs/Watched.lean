import ValueHeap.Proofs.Congruence
import ValueHeap.Proofs.FaultLevels
import ValueHeap.Proofs.Heap.Limit

/-!
# Operations under watch

Comparing, fingerprinting and copying go down level by level, and the heap counts the levels that
are entered.  Here they are written once more with nothing but that count: what goes further down
enters a level, which the heap refuses if none is left, and what comes back leaves it.  How many
levels are left is never handed on.

All of it is watched.  An alarm is rung where the count is out of bounds as something begins, where
something ends with another count than it began with, and where a level is to be left that was not
entered.  It is then the result of the whole operation.

## What is here

* `Outcome.Balanced` — what the count is to be when an operation has ended.
* `Watched.watch` — an operation under watch, and `Watched.oneLevelDown` one on a level of its own.
* `Watched.compare`, `Watched.hash`, `Watched.copy` and `Watched.build` — the operations.
-/

set_option autoImplicit false

namespace ValueHeap

/-- An operation that began on a level has ended on it.  Only a fault, which nothing comes back
from, leaves the levels that were entered where it struck: no fewer, and within the limit. -/
def Outcome.Balanced {α : Type} (depth limit : Nat) (o : Outcome α) : Prop :=
  match o.result with
  | .error (.fault _) =>
    depth ≤ o.heap.depth ∧ o.heap.depth ≤ limit ∧ o.heap.budget.depthLimit = limit
  | _ => o.heap.OnLevel depth limit

instance {α : Type} (depth limit : Nat) (o : Outcome α) : Decidable (o.Balanced depth limit) :=
  match o with
  | ⟨.error (.fault _), _, _⟩ => inferInstanceAs (Decidable (_ ∧ _ ∧ _))
  | ⟨.error (.error _), _, _⟩ => inferInstanceAs (Decidable (_ ∧ _))
  | ⟨.ok _, _, _⟩ => inferInstanceAs (Decidable (_ ∧ _))

/-- An operation as it looks to one that only looks at the heap.  What it leaves of the heap is not
handed on, so it has to be watched for a count that has changed. -/
def Action.answer {α : Type} (x : Action α) (h : Heap) : Answer α :=
  match x h with
  | ⟨.ok a, _, es⟩ => ⟨es, .ok a⟩
  | ⟨.error (.error e), _, es⟩ => ⟨es, .error (.error e)⟩
  | ⟨.error (.fault f), k, es⟩ => ⟨es, .error (.fault f k.levelsLeft)⟩

/-! ## The watch -/

namespace Watched

section Watch

variable {α : Type} (alarm : Failure) (floor : Nat)

/-- Rings the alarm. -/
def ring : Action α := fun h => ⟨.error alarm, h, []⟩

/-- An operation under watch.  It may only begin between the floor and the limit, and must end on
the level on which it began. -/
def watch (x : Action α) : Action α := fun h =>
  if floor ≤ h.depth ∧ h.depth ≤ h.budget.depthLimit ∧
      (x h).Balanced h.depth h.budget.depthLimit then x h
  else ring alarm h

example : (watch (.fault .overflow) 0 (fun h => ⟨.ok (), h.leave, []⟩)
    ⟨#[], [], .untracked, 1⟩).result = .error (.fault .overflow) := rfl

/-- An operation under watch one level further down.  The heap may refuse the level.  One that was
entered is left again unless a fault strikes; only a level above the floor may be left. -/
def oneLevelDown (refused : ResourceError → RunError) (x : Action α) : Action α := fun h =>
  match h.enter with
  | .error e => ⟨.error (.error (refused e)), h, [.tooDeep h.budget.depthLimit]⟩
  | .ok k =>
    match watch alarm floor x k with
    | ⟨.error (.fault f), l, es⟩ => ⟨.error (.fault f), l, es⟩
    | ⟨result, l, es⟩ => if floor < l.depth then ⟨result, l.leave, es⟩ else ring alarm l

end Watch

/-! ## Operations -/

section Operations

variable (alarm : Failure) (floor : Nat)

/-- One level of a comparison, where `judge` compares parts. -/
def compareLevel (mode : Mode) (judge : Value → Value → Operator → Action Bool)
    (a b : Value) (op : Operator) : Action Bool :=
  Action.consult fun h levels =>
    Compare.dispatch h mode levels (fun x y op => (judge x y op).answer h) a b op

/-- A comparison, by so many steps at most. -/
def compare (mode : Mode) : Nat → Value → Value → Operator → Action Bool
  | 0, _, _, _ => ring alarm
  | steps + 1, a, b, op =>
    watch alarm floor <| Action.consult fun h _ =>
      Compare.unlessInts (fun a b op =>
        (oneLevelDown alarm floor (fun _ => .raised .comparisonTooDeep)
          (compareLevel mode (compare mode steps) a b op)).answer h) a b op

/-- A comparison that takes no level for the two values themselves. -/
def compareHere (mode : Mode) (steps : Nat) (a b : Value) (op : Operator) : Action Bool :=
  watch alarm floor (compareLevel mode (compare alarm floor mode steps) a b op)

/-- A fingerprint, by so many steps at most. -/
def hash : Nat → Value → Action Int64
  | 0, _ => ring alarm
  | steps + 1, v =>
    watch alarm floor <| Action.consult fun h levels =>
      Fingerprint.ofValueWith h levels (fun x =>
        (oneLevelDown alarm floor .resource
          (Action.consult fun k _ => x fun w => (hash steps w).answer k)).answer h) v

/-- A copy, by so many steps at most. -/
def copy : Nat → Value → Action Value
  | 0, _ => ring alarm
  | steps + 1, v =>
    watch alarm floor <|
      Copy.ofValueWith (fun x => oneLevelDown alarm floor .resource (x (copy steps))) v

/-- A search for a key by comparisons under watch. -/
def find (steps : Nat) : Build.Search := fun wanted stored =>
  watch alarm floor <| Action.silently <| Action.consult fun h _ =>
    Compare.position (fun x y op => (compare alarm floor .total steps x y op).answer h)
      wanted stored

/-- The value for an object, with keys looked for under watch. -/
def build (steps : Nat) (o : Object) : Action Value :=
  watch alarm floor (o.buildWith (find alarm floor steps))

end Operations

end Watched

end ValueHeap
