import ValueHeap.Heap.Release
import ValueHeap.Trace

/-!
# Operations that only look, and operations that change the heap

Comparing two values and fingerprinting one only look at the heap: their outcome is a result and
the events on the way to it, an `Answer`.  Building and copying change the heap as they go, also
when they fail in the end: such an operation is an `Action`, from a heap to a result, the heap that
it leaves and the events.

## What is here

* `Answer` — a monad of results with events.  Where a fault strikes, the answer also says how many
  levels of nesting were left, since a fault leaves the levels entered.
* `Action` — a monad of operations on a heap.  `Action.consult` runs an answer within an action.
* `Action.onError` — cleaning up behind an error.  A fault is passed on with nothing cleaned up.
* `Action.oneLevelDown` — an operation one level further down.
-/

set_option autoImplicit false

namespace ValueHeap

/-! ## Answers -/

/-- Why an operation that only looks at the heap stopped. -/
inductive Halt where
  /-- An error that it reports. -/
  | error (e : RunError)
  /-- A fault, with the levels that were left where it struck. -/
  | fault (f : Fault) (levels : Nat)
deriving DecidableEq

/-- The outcome of an operation that only looks at the heap. -/
structure Answer (α : Type) where
  /-- What was reported on the way. -/
  events : List Event
  /-- The result. -/
  result : Except Halt α

namespace Answer

variable {α β : Type}

/-- A result without any event. -/
protected def pure (a : α) : Answer α := ⟨[], .ok a⟩

/-- Goes on with a result.  The events of both parts follow each other, and nothing follows a
failure. -/
protected def bind (x : Answer α) (f : α → Answer β) : Answer β :=
  match x.result with
  | .ok a =>
    let next := f a
    ⟨x.events ++ next.events, next.result⟩
  | .error e => ⟨x.events, .error e⟩

instance : Monad Answer where
  pure := Answer.pure
  bind := Answer.bind

/-- An error, without any event. -/
def fail (e : RunError) : Answer α := ⟨[], .error (.error e)⟩

/-- An error with its cause. -/
def raise (c : Cause) : Answer α := fail (.raised c)

/-- An event. -/
def report (e : Event) : Answer Unit := ⟨[e], .ok ()⟩

/-- The refusal of a level of nesting: the limit is reported, and then the error. -/
def refuse (limit : Nat) (e : RunError) : Answer α := ⟨[.tooDeep limit], .error (.error e)⟩

/-- What was looked up with so many levels left, or the fault of looking. -/
def look (levels : Nat) : Except Fault α → Answer α
  | .ok a => .pure a
  | .error f => ⟨[], .error (.fault f levels)⟩

/-- The first of two ways to decide a question, or the second if the first leaves it open. -/
@[macro_inline] def decideOr (first : Answer (Option α)) (second : Answer α) : Answer α := do
  match ← first with
  | some a => pure a
  | none => second

@[simp] theorem result_pure (a : α) : (pure a : Answer α).result = .ok a := rfl

@[simp] theorem events_pure (a : α) : (pure a : Answer α).events = [] := rfl

@[simp] theorem result_bind (x : Answer α) (f : α → Answer β) :
    (x >>= f).result = x.result.bind fun a => (f a).result := by
  show (Answer.bind x f).result = _
  unfold Answer.bind
  cases x.result <;> rfl

theorem events_bind (x : Answer α) (f : α → Answer β) :
    (x >>= f).events =
      x.events ++ (match x.result with | .ok a => (f a).events | .error _ => []) := by
  show (Answer.bind x f).events = _
  unfold Answer.bind
  cases x.result <;> simp

theorem id_map_eq (x : Answer α) : id <$> x = x := by
  show Answer.bind x _ = x
  rcases x with ⟨es, _ | a⟩ <;> simp [Answer.bind, Answer.pure]

theorem pure_bind_eq (a : α) (f : α → Answer β) : pure a >>= f = f a := by
  show Answer.bind _ f = f a
  simp [Answer.bind]

theorem bind_assoc_eq {γ : Type} (x : Answer α) (f : α → Answer β) (g : β → Answer γ) :
    x >>= f >>= g = x >>= fun a => f a >>= g := by
  show Answer.bind (Answer.bind x f) g = Answer.bind x fun a => Answer.bind (f a) g
  rcases x with ⟨es, _ | a⟩
  · rfl
  · simp only [Answer.bind]
    rcases f a with ⟨fs, _ | b⟩ <;> simp

instance : LawfulMonad Answer := LawfulMonad.mk' _ id_map_eq pure_bind_eq bind_assoc_eq

end Answer

/-! ## Actions -/

/-- The outcome of an operation that changes the heap. -/
structure Outcome (α : Type) where
  /-- The result. -/
  result : Except Failure α
  /-- The heap that is left. -/
  heap : Heap
  /-- What was reported on the way. -/
  events : List Event

/-- An operation on the heap. -/
def Action (α : Type) : Type := Heap → Outcome α

namespace Action

variable {α β : Type}

/-- A result with the heap as it was. -/
protected def pure (a : α) : Action α := fun h => ⟨.ok a, h, []⟩

/-- Goes on with a result and the heap that it comes with. -/
protected def bind (x : Action α) (f : α → Action β) : Action β := fun h =>
  match x h with
  | ⟨.ok a, h', es⟩ =>
    let next := f a h'
    ⟨next.result, next.heap, es ++ next.events⟩
  | ⟨.error e, h', es⟩ => ⟨.error e, h', es⟩

instance : Monad Action where
  pure := Action.pure
  bind := Action.bind

theorem bind_apply_ok {x : Action α} {f : α → Action β} {h : Heap} {a : α}
    (hx : (x h).result = .ok a) :
    (x >>= f) h =
      ⟨(f a (x h).heap).result, (f a (x h).heap).heap,
        (x h).events ++ (f a (x h).heap).events⟩ := by
  show Action.bind x f h = _
  unfold Action.bind
  rcases hxh : x h with ⟨r, h', es⟩
  rw [hxh] at hx
  cases hx
  rfl

theorem bind_apply_error {x : Action α} {f : α → Action β} {h : Heap} {e : Failure}
    (hx : (x h).result = .error e) : (x >>= f) h = ⟨.error e, (x h).heap, (x h).events⟩ := by
  show Action.bind x f h = _
  unfold Action.bind
  rcases hxh : x h with ⟨r, h', es⟩
  rw [hxh] at hx
  cases hx
  rfl

/-- An error, with the heap as it was. -/
def fail (e : RunError) : Action α := fun h => ⟨.error (.error e), h, []⟩

/-- An error with its cause. -/
def raise (c : Cause) : Action α := fail (.raised c)

/-- An event. -/
def report (e : Event) : Action Unit := fun h => ⟨.ok (), h, [e]⟩

/-- Looks something up in the heap. -/
def look (f : Heap → Except Fault α) : Action α := fun h =>
  match f h with
  | .ok a => ⟨.ok a, h, []⟩
  | .error f => ⟨.error (.fault f), h, []⟩

/-- Takes the heap over from a change that may meet a fault. -/
def change (f : Heap → Except Fault α × Heap) : Action α := fun h =>
  match f h with
  | (.ok a, h') => ⟨.ok a, h', []⟩
  | (.error f, h') => ⟨.error (.fault f), h', []⟩

/-- Runs an operation that only looks at the heap, with the levels that the heap has left.  A fault
leaves the levels that were entered where it struck. -/
def consult (f : Heap → Nat → Answer α) : Action α := fun h =>
  let answer := f h h.levelsLeft
  match answer.result with
  | .ok a => ⟨.ok a, h, answer.events⟩
  | .error (.error e) => ⟨.error (.error e), h, answer.events⟩
  | .error (.fault f levels) =>
    ⟨.error (.fault f), { h with depth := h.budget.depthLimit - levels }, answer.events⟩

/-- The same operation with nobody watching. -/
def silently (x : Action α) : Action α := fun h => { x h with events := [] }

/-- Cleans up behind an operation that ends in an error, which is then reported all the same.  A
fault, of the operation or of the cleaning, is passed on as it is. -/
def onError (x : Action α) (cleanup : Action Unit) : Action α := fun h =>
  match x h with
  | ⟨.error (.error e), h', es⟩ =>
    match cleanup h' with
    | ⟨.ok (), h'', fs⟩ => ⟨.error (.error e), h'', es ++ fs⟩
    | ⟨.error other, h'', fs⟩ => ⟨.error other, h'', es ++ fs⟩
  | outcome => outcome

/-- An operation one level further down.  The level is left again unless a fault strikes. -/
def oneLevelDown (x : Action α) : Action α := fun h =>
  match x { h with depth := h.depth + 1 } with
  | ⟨.error (.fault f), h', es⟩ => ⟨.error (.fault f), h', es⟩
  | ⟨result, h', es⟩ => ⟨result, h'.leave, es⟩

/-! ## References -/

/-- Takes one more reference to the slot of a value, if it has one. -/
def retain (v : Value) : Action Value :=
  match v.slot? with
  | none => pure v
  | some s => do
    change fun h => h.retain s
    pure v

/-- Gives back the references of values, in order. -/
def release (vs : List Value) : Action Unit :=
  change fun h => h.release (vs.filterMap Value.slot?)

/-- Places contents in a slot, and answers with a reference to it. -/
def allocate (p : Payload) : Action Value := fun h =>
  match h.allocate p with
  | (.ok s, h') => ⟨.ok (.ref s), h', []⟩
  | (.error e, h') => ⟨.error e, h', []⟩

theorem id_map_eq (x : Action α) : id <$> x = x := by
  show Action.bind x _ = x
  funext h
  simp only [Action.bind]
  rcases x h with ⟨_ | a, h', es⟩ <;> simp [Action.pure]

theorem pure_bind_eq (a : α) (f : α → Action β) : pure a >>= f = f a := by
  show Action.bind (Action.pure a) f = f a
  funext h
  simp [Action.bind, Action.pure]

theorem bind_assoc_eq {γ : Type} (x : Action α) (f : α → Action β) (g : β → Action γ) :
    x >>= f >>= g = x >>= fun a => f a >>= g := by
  show Action.bind (Action.bind x f) g = Action.bind x fun a => Action.bind (f a) g
  funext h
  simp only [Action.bind]
  rcases x h with ⟨_ | a, h', es⟩
  · rfl
  · simp only
    rcases f a h' with ⟨_ | b, h'', fs⟩ <;> simp

instance : LawfulMonad Action := LawfulMonad.mk' _ id_map_eq pure_bind_eq bind_assoc_eq

end Action

end ValueHeap
