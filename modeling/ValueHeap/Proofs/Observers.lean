import ValueHeap.Proofs.Requests

/-!
# Tracers only observe

An operation reports events and asks nothing back, so an engine does the same whatever its tracer
is.  This holds for operations one after the other as well, each of them chosen in view of what the
ones before it came to: the choices are the same, and so are the events.  What tracers with a limit
make of the events is decided by how many there have been.

## What is here

* `Tracer.observeAll_recording` and `Tracer.observeAll_printing` — tracers with a limit.
* `Engine.Call` and `Engine.serve` — what can be asked of an engine, and what comes of it.
* `Engine.Plan` and `Engine.run` — calls one after the other.
* `tracers_only_observe` — **all tracers**.
-/

set_option autoImplicit false

namespace ValueHeap

/-! ## Tracers with a limit -/

namespace Tracer

theorem observeAll_recording_none (kept : Array Event) (es : List Event) :
    (recording none kept).observeAll es = recording none (kept ++ es.toArray) := by
  induction es generalizing kept with
  | nil => simp [observeAll]
  | cons e rest ih =>
    refine (ih (kept.push e)).trans ?_
    simp

/-- **The first events are kept**, as many as there is room for. -/
theorem observeAll_recording (limit : Nat) (kept : Array Event) (es : List Event) :
    (recording (some limit) kept).observeAll es =
      recording (some limit) (kept ++ (es.take (limit - kept.size)).toArray) := by
  induction es generalizing kept with
  | nil => simp [observeAll]
  | cons e rest ih =>
    rw [observeAll, List.foldl_cons, ← observeAll]
    by_cases hroom : kept.size < limit
    · have htake : limit - kept.size = limit - (kept.push e).size + 1 := by
        rw [Array.size_push]
        omega
      have hobserve : (recording (some limit) kept).observe e =
          recording (some limit) (kept.push e) := by simp [observe, hroom]
      rw [hobserve, ih, htake]
      simp
    · have hnone : limit - kept.size = 0 := by omega
      have hobserve : (recording (some limit) kept).observe e = recording (some limit) kept := by
        simp [observe, hroom]
      rw [hobserve, ih, hnone]
      simp

theorem observeAll_printing_none (seen : Nat) (lines : Array String) (es : List Event) :
    ((printing none seen lines).observeAll es).lines =
      lines ++ (es.map Event.line).toArray := by
  induction es generalizing seen lines with
  | nil => simp [observeAll, Tracer.lines]
  | cons e rest ih =>
    refine (ih (seen + 1) (lines.push e.line)).trans ?_
    simp

/-- A trace that was closed stays as it is. -/
theorem observeAll_closed (limit : Nat) (lines : Array String) (es : List Event) :
    (printing (some limit) (limit + 1) lines).observeAll es =
      printing (some limit) (limit + 1) lines := by
  induction es with
  | nil => rfl
  | cons e rest ih =>
    rw [observeAll, List.foldl_cons, ← observeAll]
    simpa [observe] using ih

/-- **The first events are printed**, and one more line if there are too many. -/
theorem observeAll_printing {limit seen : Nat} (hseen : seen ≤ limit) (lines : Array String)
    (es : List Event) :
    ((printing (some limit) seen lines).observeAll es).lines =
      lines ++ ((es.take (limit - seen)).map Event.line).toArray ++
        if limit - seen < es.length then #[closingLine limit] else #[] := by
  induction es generalizing seen lines with
  | nil => simp [observeAll, Tracer.lines]
  | cons e rest ih =>
    rw [observeAll, List.foldl_cons, ← observeAll]
    rcases Nat.lt_or_eq_of_le hseen with hlt | rfl
    · have htake : limit - seen = limit - (seen + 1) + 1 := by omega
      have hobserve : (printing (some limit) seen lines).observe e =
          printing (some limit) (seen + 1) (lines.push e.line) := by simp [observe, hlt]
      rw [hobserve, ih hlt, htake]
      simp
    · have hobserve : (printing (some seen) seen lines).observe e =
          printing (some seen) (seen + 1) (lines.push (closingLine seen)) := by simp [observe]
      rw [hobserve, observeAll_closed]
      simp [Tracer.lines]

end Tracer

/-! ## Calls one after the other -/

namespace Engine

/-- What can be asked of an engine. -/
inductive Call where
  | copy (v : Value)
  | fingerprint (v : Value)
  | compare (a b : Value) (op : Operator)
  | compareHere (a b : Value) (op : Operator)
  | compareByFallback (a b : Value) (op : Operator)
  /-- A request to the heap itself, of which no tracer is told. -/
  | onHeap (r : Request)
  /-- To compare in this mode from now on. -/
  | setMode (mode : Mode)

/-- What comes of a call. -/
inductive Reply where
  | value (result : Except Failure Value)
  | word (result : Except Failure Int64)
  | verdict (result : Except Failure Bool)
  | received (result : Except Failure (List Value))
  | done

/-- Answers a call. -/
def serve (e : Engine) : Call → Reply × Engine
  | .copy v => (e.copy v).map .value id
  | .fingerprint v => (e.fingerprint v).map .word id
  | .compare a b op => (e.compare a b op).map .verdict id
  | .compareHere a b op => (e.compareHere a b op).map .verdict id
  | .compareByFallback a b op => (e.compareByFallback a b op).map .verdict id
  | .onHeap r => (e.perform (Action.silently r.perform)).map .received id
  | .setMode mode => (.done, { e with mode })

/-- Calls one after the other.  Which one comes next may depend on what the last one came to. -/
inductive Plan where
  | done
  | ask (call : Call) (next : Reply → Plan)

/-- Makes the calls of a plan, and keeps what came of each. -/
def run (e : Engine) : Plan → List Reply × Engine
  | .done => ([], e)
  | .ask call next =>
    let (reply, e') := e.serve call
    let (replies, e'') := e'.run (next reply)
    (reply :: replies, e'')

/-- A call comes to the same with every tracer, which is shown the same events. -/
theorem serve_eq (h : Heap) (mode : Mode) (call : Call) :
    ∃ (reply : Reply) (k : Heap) (mode' : Mode) (events : List Event), ∀ t : Tracer,
      (Engine.mk h mode t).serve call = (reply, ⟨k, mode', t.observeAll events⟩) := by
  have hperform {α : Type} (x : Action α) (reply : Except Failure α → Reply) :
      ∃ (r : Reply) (k : Heap) (mode' : Mode) (events : List Event), ∀ t : Tracer,
        ((Engine.mk h mode t).perform x).map reply id = (r, ⟨k, mode', t.observeAll events⟩) :=
    ⟨reply (x h).result, (x h).heap, mode, (x h).events, fun _ => rfl⟩
  cases call with
  | copy v => exact hperform _ .value
  | fingerprint v => exact hperform _ .word
  | compare a b op => exact hperform (richCompare mode a b op) .verdict
  | compareHere a b op => exact hperform (richCompareHere mode a b op) .verdict
  | compareByFallback a b op =>
    exact hperform (ValueHeap.compareByFallback mode a b op) .verdict
  | onHeap r => exact hperform _ .received
  | setMode mode' => exact ⟨.done, h, mode', [], fun _ => rfl⟩

/-- So does a plan. -/
theorem run_eq (h : Heap) (mode : Mode) (plan : Plan) :
    ∃ (replies : List Reply) (k : Heap) (mode' : Mode) (events : List Event), ∀ t : Tracer,
      (Engine.mk h mode t).run plan = (replies, ⟨k, mode', t.observeAll events⟩) := by
  induction plan generalizing h mode with
  | done => exact ⟨[], h, mode, [], fun _ => rfl⟩
  | ask call next ih =>
    obtain ⟨reply, k, mode', events, hserve⟩ := serve_eq h mode call
    obtain ⟨replies, l, mode'', events', hrun⟩ := ih reply k mode'
    refine ⟨reply :: replies, l, mode'', events ++ events', fun t => ?_⟩
    rw [run, hserve]
    simp only [hrun, Tracer.observeAll_append]

end Engine

/-- **Tracers only observe.**  Whatever is asked of an engine, one call after the other and each in
view of the answers so far, the answers are the same with every tracer, and so is the heap that is
left.  A tracer that records up to a limit holds the first of the events that one without a limit
records, and all of them if there are no more.  One that prints up to a limit prints a line for each
of these, then the closing line if there is one event more, and then nothing. -/
theorem tracers_only_observe (h : Heap) (mode : Mode) (plan : Engine.Plan) :
    let full := (Engine.mk h mode (.recording none #[])).run plan
    (∀ t : Tracer, ((Engine.mk h mode t).run plan).1 = full.1 ∧
        ((Engine.mk h mode t).run plan).2.heap = full.2.heap ∧
        ((Engine.mk h mode t).run plan).2.mode = full.2.mode) ∧
      (∀ limit, ((Engine.mk h mode (.recording (some limit) #[])).run plan).2.tracer.events =
        full.2.tracer.events.take limit) ∧
      ((Engine.mk h mode (.printing none 0 #[])).run plan).2.tracer.lines =
        full.2.tracer.events.map Event.line ∧
      ∀ limit, ((Engine.mk h mode (.printing (some limit) 0 #[])).run plan).2.tracer.lines =
        (full.2.tracer.events.take limit).map Event.line ++
          if limit < full.2.tracer.events.size then #[Tracer.closingLine limit] else #[] := by
  obtain ⟨replies, k, mode', events, hrun⟩ := Engine.run_eq h mode plan
  have hfull : (Tracer.recording none #[]).observeAll events =
      .recording none events.toArray := by
    rw [Tracer.observeAll_recording_none, Array.empty_append]
  simp only [hrun, hfull, and_self, implies_true, true_and]
  refine ⟨fun limit => ?_, ?_, fun limit => ?_⟩
  · rw [Tracer.observeAll_recording]
    simp [Tracer.events]
  · rw [Tracer.observeAll_printing_none]
    simp [Tracer.events]
  · rw [Tracer.observeAll_printing (Nat.zero_le limit)]
    simp [Tracer.events]

end ValueHeap
