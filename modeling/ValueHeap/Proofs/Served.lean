import ValueHeap.Proofs.Congruence
import ValueHeap.Proofs.Heap.Calls
import ValueHeap.Proofs.Lasting
import ValueHeap.Proofs.Release

/-!
# Requests come down to calls

What a caller asks of a heap is done by calls: building, copying and the rest place contents, take
references and give them back, and nothing else.  This does not depend on what the caller owns.  It
holds for requests that nobody should make, for those that end in an error and for those that break
off on a fault, so what is known of calls is known of all that requests can bring about.  Whoever
makes no request that breaks off makes no call either that is counted for contents not placed.

## What is here

* `Action.MadeOfCalls` — an operation that leaves what calls leave, none of which changes contents
  in place.
* `Action.madeOfCalls_congruence` — it holds of whatever is put together from such operations.
* `Request.calls` — the calls of a request.
* `Heap.serve` and `Heap.brokenOff` — requests one after the other, and how many of them break off
  on a fault.
* `Heap.exists_calls_serve` — their calls.
-/

set_option autoImplicit false

namespace ValueHeap

open ValueHeap.Heap (Call)

/-- Whether contents are changed in place. -/
def Heap.Call.inPlace : Call → Bool
  | push .. | replace .. | overwrite .. => true
  | _ => false

theorem Heap.Call.of_inPlace {call : Call} (hcall : call.inPlace = false) :
    call.isOverwrite = false ∧ call.isPush = false := by
  cases call <;> first | exact ⟨rfl, rfl⟩ | cases hcall

/-- Calls leave one heap of another, none of them changes contents in place, and no more than so
many are counted that place none. -/
def Heap.LeadsTo (h k : Heap) (most : Nat) : Prop :=
  ∃ calls : List Call, (∀ call ∈ calls, call.inPlace = false) ∧ k = h.run calls ∧
    h.overrun calls ≤ most

namespace Heap.LeadsTo

variable {h k l : Heap} {most : Nat}

theorem refl (h : Heap) : h.LeadsTo h most :=
  ⟨[], fun _ hc => absurd hc List.not_mem_nil, rfl, Nat.zero_le most⟩

theorem call {c : Call} (hc : c.inPlace = false) (hover : (c.overruns h).toNat ≤ most) :
    h.LeadsTo (c.perform h) most :=
  ⟨[c], by simpa using hc, rfl, hover⟩

theorem trans (hhk : h.LeadsTo k 0) (hkl : k.LeadsTo l most) : h.LeadsTo l most := by
  obtain ⟨first, hfirst, rfl, hzero⟩ := hhk
  obtain ⟨rest, hrest, rfl, hmost⟩ := hkl
  refine ⟨first ++ rest, fun c hc => ?_, (run_append h first rest).symm, ?_⟩
  · exact (List.mem_append.1 hc).elim (hfirst c) (hrest c)
  · rw [overrun, tally_append]
    exact Nat.le_trans (Nat.add_le_add hzero hmost) (Nat.zero_add most).le

theorem setDepth (h : Heap) (depth : Nat) : h.LeadsTo { h with depth } most :=
  call (c := .setDepth depth) rfl (Nat.zero_le most)

/-- References are given back by one call for each. -/
theorem release (h : Heap) (pending : List Slot) : h.LeadsTo (h.release pending).2 most := by
  induction pending generalizing h with
  | nil =>
    rw [Heap.release]
    exact refl h
  | cons s rest ih =>
    have hone {n : Nat} : h.LeadsTo (h.release [s]).2 n :=
      call (c := .release s) rfl (Nat.zero_le n)
    rw [← List.singleton_append, Heap.release_append]
    rcases hs : h.release [s] with ⟨f | u, k⟩ <;> simp only [hs] at hone ⊢
    · exact hone
    · exact hone.trans (ih k)

end Heap.LeadsTo

/-- Whether a failure is a fault. -/
def Failure.isFault : Failure → Bool
  | error _ => false
  | fault _ => true

/-- One for an operation that broke off on a fault, and else nothing. -/
def Outcome.faults {α : Type} (o : Outcome α) : Nat :=
  match o.result with
  | .ok _ => 0
  | .error e => e.isFault.toNat

theorem Outcome.faults_of_ok {α : Type} {o : Outcome α} {a : α} (ho : o.result = .ok a) :
    o.faults = 0 := by
  rw [faults, ho]

theorem Outcome.faults_of_error {α : Type} {o : Outcome α} {e : RunError}
    (ho : o.result = .error (.error e)) : o.faults = 0 := by
  rw [faults, ho]
  rfl

namespace Action

variable {α β : Type} {x : Action α}

/-- Whatever heap the operation is run on, and whatever it ends in, it leaves what calls leave that
change nothing in place.  None of these is counted for contents not placed, unless the operation
broke off on it. -/
def MadeOfCalls (x : Action α) : Prop := ∀ h : Heap, h.LeadsTo (x h).heap (x h).faults

theorem madeOfCalls_bind {f : α → Action β} (hx : x.MadeOfCalls) (hf : ∀ a, (f a).MadeOfCalls) :
    (x >>= f).MadeOfCalls := by
  intro h
  cases hr : (x h).result with
  | ok a =>
    rw [bind_apply_ok hr]
    exact (Outcome.faults_of_ok hr ▸ hx h).trans (hf a _)
  | error e =>
    have hk := hx h
    rw [Outcome.faults, hr] at hk
    rw [bind_apply_error hr]
    exact hk

theorem madeOfCalls_look (f : Heap → Except Fault α) : (look f).MadeOfCalls := by
  intro h
  rw [look]
  cases f h <;> exact .refl h

theorem madeOfCalls_consult (f : Heap → Nat → Answer α) : (consult f).MadeOfCalls := by
  intro h
  rw [consult]
  generalize f h h.levelsLeft = answer
  rcases answer with ⟨es, (e | ⟨f, levels⟩) | a⟩
  · exact .refl h
  · exact .setDepth h _
  · exact .refl h

theorem madeOfCalls_onError (hx : x.MadeOfCalls) {cleanup : Action Unit}
    (hcleanup : cleanup.MadeOfCalls) : (onError x cleanup).MadeOfCalls := by
  intro h
  have hk := hx h
  rw [onError]
  generalize x h = o at hk ⊢
  rcases o with ⟨(e | f) | a, k, es⟩
  · have hl := hcleanup k
    simp only
    generalize cleanup k = o at hl ⊢
    rcases o with ⟨_ | _, l, fs⟩ <;> exact hk.trans hl
  · exact hk
  · exact hk

theorem madeOfCalls_oneLevelDown (hx : x.MadeOfCalls) : (oneLevelDown x).MadeOfCalls := by
  intro h
  have hk := (Heap.LeadsTo.setDepth h (h.depth + 1)).trans (hx _)
  rw [oneLevelDown]
  generalize x { h with depth := h.depth + 1 } = o at hk ⊢
  rcases o with ⟨(e | f) | a, k, es⟩
  · exact hk.trans (.setDepth k _)
  · exact hk
  · exact hk.trans (.setDepth k _)

theorem madeOfCalls_retain (v : Value) : (retain v).MadeOfCalls := by
  cases v with
  | ref s =>
    refine madeOfCalls_bind (fun h => ?_) fun _ h => .refl h
    rw [heap_change]
    exact .call (c := .retain s) rfl (Nat.zero_le _)
  | _ => exact fun h => .refl h

theorem madeOfCalls_release (vs : List Value) : (release vs).MadeOfCalls := by
  intro h
  rw [release, heap_change]
  exact .release h _

theorem madeOfCalls_allocate (p : Payload) : (allocate p).MadeOfCalls := by
  intro h
  rw [heap_allocate]
  refine .call (c := .allocate p) rfl ?_
  cases hover : (Call.allocate p).overruns h with
  | false => exact Nat.zero_le _
  | true =>
    obtain ⟨_, f, ⟨⟩, hf⟩ := Call.exists_fault_of_overruns hover
    rw [allocate, Heap.allocate_of_fault hf]
    exact Bool.toNat_le _

/-- Whatever is put together from calls comes down to calls. -/
theorem madeOfCalls_congruence : Congruence fun _ x _ => x.MadeOfCalls where
  pure _ h := .refl h
  raise _ h := .refl h
  report _ h := .refl h
  look _ := madeOfCalls_look _
  depth := madeOfCalls_look _
  bind := madeOfCalls_bind
  onError hx vs := madeOfCalls_onError hx (madeOfCalls_release vs)
  retain := madeOfCalls_retain
  release := madeOfCalls_release
  allocate := madeOfCalls_allocate

theorem faults_map (f : α → β) (x : Action α) (h : Heap) : ((f <$> x) h).faults = (x h).faults := by
  rw [map_eq_pure_bind]
  show (Action.bind x _ h).faults = _
  rw [Action.bind]
  rcases x h with ⟨_ | a, k, es⟩ <;> rfl

theorem madeOfCalls_map (f : α → β) (hx : x.MadeOfCalls) : (f <$> x).MadeOfCalls := by
  intro h
  rw [heap_map, faults_map]
  exact hx h

end Action

/-! ## Operations -/

open ValueHeap.Action

theorem Object.madeOfCalls_build (o : Object) : o.build.MadeOfCalls :=
  madeOfCalls_congruence.build (fun _ _ => madeOfCalls_consult _) o

theorem Copy.madeOfCalls_ofValue {inside : Option (Value → Action Value)}
    (hinside : ∀ copy, inside = some copy → ∀ v, (copy v).MadeOfCalls) (v : Value) :
    (ofValue inside v).MadeOfCalls := by
  have hall := madeOfCalls_congruence
  refine hall.ofValueWith hall (ofValue.contents inside) (ofValue.contents inside)
    (fun x hx => ?_) v
  cases inside with
  | none => exact madeOfCalls_consult _
  | some copy => exact madeOfCalls_oneLevelDown (hx copy copy (hinside copy rfl))

theorem Copy.madeOfCalls_within (levels : Nat) (v : Value) : (within levels v).MadeOfCalls := by
  induction levels generalizing v with
  | zero => exact madeOfCalls_ofValue (fun _ hcopy => by cases hcopy) v
  | succ levels ih =>
    refine madeOfCalls_ofValue ?_ v
    rintro _ ⟨⟩
    exact ih

theorem madeOfCalls_deepCopy (v : Value) : (deepCopy v).MadeOfCalls := fun h =>
  Copy.madeOfCalls_within h.levelsLeft v h

theorem madeOfCalls_takeObject (v : Value) : (takeObject v).MadeOfCalls :=
  madeOfCalls_bind (madeOfCalls_look _) fun _ =>
    madeOfCalls_bind (madeOfCalls_release [v]) fun _ h => .refl h

theorem madeOfCalls_typeValue (ty : TypeRef) : (typeValue ty).MadeOfCalls := by
  cases ty with
  | builtin ty => exact fun h => .refl h
  | userClass s => exact madeOfCalls_retain _

/-- What a class or an instance depends on is looked at, and a reference is taken to it. -/
theorem madeOfCalls_dependent {b : Value} {p : Slot → Payload} {c : String → Cause} :
    (do
      match ← classSlot? b with
      | some s => do
        let _ ← Action.retain b
        Action.allocate (p s)
      | none => do
        let ty ← Action.look fun h => h.typeName b
        Action.raise (c ty) : Action Value).MadeOfCalls := by
  refine madeOfCalls_bind ?_ fun s => ?_
  · cases b with
    | ref s => exact madeOfCalls_bind (madeOfCalls_look _) fun _ h => .refl h
    | _ => exact fun h => .refl h
  · cases s with
    | some s => exact madeOfCalls_bind (madeOfCalls_retain b) fun _ => madeOfCalls_allocate _
    | none => exact madeOfCalls_bind (madeOfCalls_look _) fun _ h => .refl h

theorem madeOfCalls_newClass (name : String) (base : Option Value) :
    (newClass name base).MadeOfCalls := by
  cases base with
  | none => exact madeOfCalls_allocate _
  | some b => exact madeOfCalls_dependent

theorem madeOfCalls_newInstance (cls : Value) : (newInstance cls).MadeOfCalls :=
  madeOfCalls_dependent

/-! ## Requests -/

/-- Whether an item is appended to a list. -/
def Request.isPush : Request → Bool
  | push .. => true
  | _ => false

/-- **Whatever is asked of a heap, calls are all that is done to it.**  Only a list is changed in
place, and an item is only appended to one when this is what was asked for.  No call is counted for
contents not placed, unless the request breaks off on it. -/
theorem Request.calls (r : Request) (h : Heap) :
    ∃ calls : List Call,
      (∀ call ∈ calls, call.isOverwrite = false ∧ (call.isPush = true → r.isPush = true)) ∧
        (r.perform h).heap = h.run calls ∧ h.overrun calls ≤ (r.perform h).faults := by
  have hplain {x : Action (List Value)} (hx : x.MadeOfCalls) :
      ∃ calls : List Call,
        (∀ call ∈ calls, call.isOverwrite = false ∧ (call.isPush = true → r.isPush = true)) ∧
          (x h).heap = h.run calls ∧ h.overrun calls ≤ (x h).faults := by
    obtain ⟨calls, hcalls, hheap, hover⟩ := hx h
    refine ⟨calls, fun call hmem => ?_, hheap, hover⟩
    obtain ⟨hover, hpush⟩ := Call.of_inPlace (hcalls call hmem)
    exact ⟨hover, fun hp => by rw [hpush] at hp; cases hp⟩
  cases r with
  | build o => exact hplain (madeOfCalls_map _ o.madeOfCalls_build)
  | take v => exact hplain (madeOfCalls_map _ (madeOfCalls_takeObject v))
  | clone v => exact hplain (madeOfCalls_map _ (madeOfCalls_retain v))
  | drop v => exact hplain (madeOfCalls_map _ (madeOfCalls_release [v]))
  | typeValue ty => exact hplain (madeOfCalls_map _ (madeOfCalls_typeValue ty))
  | newClass name base => exact hplain (madeOfCalls_map _ (madeOfCalls_newClass name base))
  | newInstance cls => exact hplain (madeOfCalls_map _ (madeOfCalls_newInstance cls))
  | allocate p => exact hplain (madeOfCalls_map _ (madeOfCalls_allocate p))
  | push s item =>
    refine ⟨[.push s item], by simp [Heap.Call.isOverwrite, isPush], ?_, Nat.zero_le _⟩
    rw [perform, heap_map, heap_change]
    rfl
  | replace s index item =>
    refine ⟨[.replace s index item], by simp [Heap.Call.isOverwrite, Heap.Call.isPush], ?_,
      Nat.zero_le _⟩
    rw [perform, heap_map, heap_change]
    rfl
  | copy v => exact hplain (madeOfCalls_map _ (madeOfCalls_deepCopy v))
  | fingerprint v => exact hplain (madeOfCalls_map _ (madeOfCalls_consult _))
  | compare mode a b op => exact hplain (madeOfCalls_map _ (madeOfCalls_consult _))
  | compareHere mode a b op => exact hplain (madeOfCalls_map _ (madeOfCalls_consult _))
  | compareByFallback mode a b op => exact hplain (madeOfCalls_map _ (madeOfCalls_consult _))
  | enter =>
    refine hplain fun h => ?_
    simp only [perform, Heap.enter]
    by_cases hlevel : 0 < h.levelsLeft
    · simp only [if_pos hlevel]
      exact .setDepth h _
    · simp only [if_neg hlevel]
      exact .refl h
  | leave => exact hplain fun h => .setDepth h _

namespace Heap

/-- What requests leave of a heap, made one after the other whatever became of those before. -/
def serve (h : Heap) (requests : List Request) : Heap :=
  requests.foldl (fun k r => (r.perform k).heap) h

/-- How many of the requests break off on a fault, made one after the other. -/
def brokenOff (h : Heap) : List Request → Nat
  | [] => 0
  | r :: rest => (r.perform h).faults + (r.perform h).heap.brokenOff rest

theorem serve_concat (h : Heap) (requests : List Request) (r : Request) :
    h.serve (requests ++ [r]) = (r.perform (h.serve requests)).heap := by
  rw [serve, List.foldl_append]
  rfl

theorem brokenOff_concat (h : Heap) (requests : List Request) (r : Request) :
    h.brokenOff (requests ++ [r]) =
      h.brokenOff requests + (r.perform (h.serve requests)).faults := by
  induction requests generalizing h with
  | nil => exact Nat.add_comm _ _
  | cons first rest ih => rw [List.cons_append, brokenOff, ih, brokenOff, Nat.add_assoc, serve,
      serve, List.foldl_cons]

/-- Requests come down to calls.  None of these puts contents in the place of others, and an item is
only appended to a list if one of the requests asks for it.  No more calls are counted for contents
not placed than requests break off. -/
theorem exists_calls_serve (h : Heap) (requests : List Request) :
    ∃ calls : List Call,
      (∀ call ∈ calls,
          call.isOverwrite = false ∧ (call.isPush = true → ∃ r ∈ requests, r.isPush = true)) ∧
        h.serve requests = h.run calls ∧ h.overrun calls ≤ h.brokenOff requests := by
  induction requests generalizing h with
  | nil => exact ⟨[], fun _ hc => absurd hc List.not_mem_nil, rfl, Nat.le_refl 0⟩
  | cons r rest ih =>
    obtain ⟨first, hfirst, hheap, hover⟩ := r.calls h
    obtain ⟨others, hothers, hserve, hrest⟩ := ih (r.perform h).heap
    refine ⟨first ++ others, fun call hmem => ?_, ?_, ?_⟩
    · rcases List.mem_append.1 hmem with hmem | hmem
      · obtain ⟨hover, hpush⟩ := hfirst call hmem
        exact ⟨hover, fun hp => ⟨r, List.mem_cons_self, hpush hp⟩⟩
      · obtain ⟨hover, hpush⟩ := hothers call hmem
        refine ⟨hover, fun hp => ?_⟩
        obtain ⟨r', hr', hp'⟩ := hpush hp
        exact ⟨r', List.mem_cons_of_mem r hr', hp'⟩
    · rw [run_append, ← hheap]
      exact hserve
    · rw [overrun, tally_append, ← hheap]
      exact Nat.add_le_add hover hrest

end Heap

/-- What can come about is what requests bring about of which none breaks off. -/
theorem Reachable.exists_requests {budget : Budget} {c : Custody} (hc : Reachable budget c) :
    ∃ requests, c.heap = (Heap.empty budget).serve requests ∧
      (Heap.empty budget).brokenOff requests = 0 := by
  have hnext {c : Custody} (r : Request) (received : List Value)
      (hc : ∃ requests, c.heap = (Heap.empty budget).serve requests ∧
        (Heap.empty budget).brokenOff requests = 0)
      (hr : (r.perform c.heap).faults = 0) :
      ∃ requests, (c.after r received).heap = (Heap.empty budget).serve requests ∧
        (Heap.empty budget).brokenOff requests = 0 := by
    obtain ⟨requests, heq, hnone⟩ := hc
    rw [heq] at hr
    refine ⟨requests ++ [r], ?_, ?_⟩
    · rw [Heap.serve_concat, ← heq]
      rfl
    · rw [Heap.brokenOff_concat, hnone, hr]
  induction hc with
  | start => exact ⟨[], rfl, rfl⟩
  | result received _ hr hok ih => exact hnext _ received ih (Outcome.faults_of_ok hok)
  | error _ hr herr ih => exact hnext _ [] ih (Outcome.faults_of_error herr)

end ValueHeap
