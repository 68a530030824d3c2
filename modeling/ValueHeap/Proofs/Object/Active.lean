import ValueHeap.Object.Snapshot

/-!
# The active slots are the way down

A snapshot is written with one set of slots, to which a slot is added before its contents are
written and from which it is taken after them.  Whatever is written in between leaves the set as it
was.  So the set holds the slots on the way down and no others, and the way down may as well be
handed on to the parts: what one part does to the set is never seen by the next.

## What is here

* `Heap.snapshotFrom` — the object for a value that is reached by a way down.
* `Heap.Restores` — a walk that leaves the set as it was, with one rule for each way in which walks
  are put together.
* `Heap.restores_snapshotWith` — the set is restored after every value.
* `Heap.snapshot_eq_snapshotFrom` — a snapshot is the object from the empty way down.
-/

set_option autoImplicit false

namespace ValueHeap

namespace Heap

/-- The object for a value that is reached by way of the slots `path`, on at most so many further
slots. -/
def snapshotFrom (h : Heap) : Nat → List Slot → Value → Except Fault Object
  | _, _, .none => .ok .none
  | _, _, .ellipsis => .ok .ellipsis
  | _, _, .bool b => .ok (.bool b)
  | _, _, .int n => .ok (.int n)
  | _, _, .float x => .ok (.float x)
  | _, _, .builtin ty => .ok (.type ty)
  | 0, path, .ref s =>
    match h.read s with
    | .ok p => if s ∈ path then .ok (Object.placeholder p) else .error .endless
    | .error f => .error f
  | slots + 1, path, .ref s =>
    match h.read s with
    | .ok p =>
      if s ∈ path then .ok (Object.placeholder p)
      else h.objectOf (h.snapshotFrom slots (s :: path)) p
    | .error f => .error f

variable {h : Heap} {α β : Type} {active : List Slot}

/-- A walk that gives a result and leaves the set as it was. -/
def Restores (active : List Slot) (x : StateT (List Slot) (Except Fault) α) (y : Except Fault α) :
    Prop :=
  x.run active = (fun a => (a, active)) <$> y

namespace Restores

theorem pure (a : α) : Restores active (Pure.pure a) (.ok a) := rfl

theorem bind {x : StateT (List Slot) (Except Fault) α} {y : Except Fault α}
    {f : α → StateT (List Slot) (Except Fault) β} {g : α → Except Fault β}
    (hx : Restores active x y) (hf : ∀ a, Restores active (f a) (g a)) :
    Restores active (x >>= f) (y >>= g) := by
  rw [Restores, StateT.run_bind, hx]
  cases y with
  | error f => rfl
  | ok a => exact hf a

theorem look (x : Except Fault α) : Restores active (liftM x) x := by
  cases x <;> rfl

theorem map {x : StateT (List Slot) (Except Fault) α} {y : Except Fault α} (f : α → β)
    (hx : Restores active x y) : Restores active (f <$> x) (f <$> y) := by
  rw [Restores, StateT.run_map, hx]
  cases y <;> rfl

theorem mapM {part : α → StateT (List Slot) (Except Fault) β} {part' : α → Except Fault β}
    (hpart : ∀ a, Restores active (part a) (part' a)) (xs : List α) :
    Restores active (xs.mapM part) (xs.mapM part') := by
  induction xs with
  | nil => exact .pure []
  | cons x rest ih =>
    rw [List.mapM_cons, List.mapM_cons]
    exact (hpart x).bind fun _ => ih.bind fun _ => .pure _

/-- A choice by what is in the set. -/
theorem ite {s : Slot} {x y : StateT (List Slot) (Except Fault) α} {x' y' : Except Fault α}
    (hx : s ∈ active → Restores active x x') (hy : s ∉ active → Restores active y y') :
    Restores active (do if s ∈ (← get) then x else y) (if s ∈ active then x' else y') := by
  show StateT.run (if s ∈ active then x else y) active = _
  by_cases hmem : s ∈ active
  · rw [if_pos hmem, if_pos hmem]
    exact hx hmem
  · rw [if_neg hmem, if_neg hmem]
    exact hy hmem

/-- What is written with one more slot in the set, which is then taken out. -/
theorem within {x : StateT (List Slot) (Except Fault) α} {y : Except Fault α} (s : Slot)
    (hx : Restores (s :: active) x y) :
    Restores active (do
      modify (s :: ·)
      let a ← x
      modify (·.erase s)
      Pure.pure a) y := by
  show (x.run (s :: active) >>= fun a => _) = _
  rw [hx]
  cases y with
  | error f => rfl
  | ok a => exact congrArg (fun path => Except.ok (a, path)) (List.erase_cons_head s active)

end Restores

/-- What is written of contents leaves the set as what is written of their parts does. -/
theorem restores_objectOf {part : Value → StateT (List Slot) (Except Fault) Object}
    {part' : Value → Except Fault Object} (hpart : ∀ v, Restores active (part v) (part' v))
    (p : Payload) : Restores active (h.objectOf part p) (h.objectOf part' p) := by
  cases p with
  | list items => exact (Restores.mapM hpart items).map _
  | tuple items => exact (Restores.mapM hpart items).map _
  | set elements => exact (Restores.mapM (fun e => hpart e.value) elements).map _
  | dict entries =>
    refine (Restores.mapM (fun e => ?_) entries).map _
    exact (hpart e.key.value).bind fun _ => (hpart e.value).bind fun _ => .pure _
  | slice start stop step =>
    exact (hpart start).bind fun _ => (hpart stop).bind fun _ => (hpart step).bind fun _ => .pure _
  | userInstance cls => exact (Restores.look _).bind fun _ => .pure _
  | _ => exact .pure _

/-- **The set of active slots is restored after every value.** -/
theorem restores_snapshotWith (slots : Nat) (v : Value) :
    Restores active (h.snapshotWith slots v) (h.snapshotFrom slots active v) := by
  induction slots generalizing active v with
  | zero =>
    cases v with
    | ref s =>
      have heq : h.snapshotFrom 0 active (.ref s) = h.read s >>= fun p =>
          if s ∈ active then .ok (Object.placeholder p) else .error .endless := by
        rw [snapshotFrom]
        cases h.read s <;> rfl
      rw [heq]
      exact (Restores.look _).bind fun p => .ite (fun _ => .pure _) fun _ => rfl
    | _ => exact .pure _
  | succ slots ih =>
    cases v with
    | ref s =>
      have heq : h.snapshotFrom (slots + 1) active (.ref s) = h.read s >>= fun p =>
          if s ∈ active then .ok (Object.placeholder p)
          else h.objectOf (h.snapshotFrom slots (s :: active)) p := by
        rw [snapshotFrom]
        cases h.read s <;> rfl
      rw [heq]
      exact (Restores.look _).bind fun p =>
        .ite (fun _ => .pure _) fun _ => .within s (restores_objectOf ih p)
    | _ => exact .pure _

/-- A snapshot is the object from the empty way down. -/
theorem snapshot_eq_snapshotFrom (v : Value) :
    h.snapshot v = h.snapshotFrom h.cells.size [] v := by
  rw [snapshot, StateT.run'_eq, restores_snapshotWith]
  cases h.snapshotFrom h.cells.size [] v <;> rfl

end Heap

end ValueHeap
