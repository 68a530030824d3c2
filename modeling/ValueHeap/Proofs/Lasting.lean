import Mathlib.Logic.Relation
import ValueHeap.Proofs.Counts

/-!
# What lasts

A slot that is emptied can be filled with something else, and the reference to it then names another
value than before.  As long as a value is in use this does not happen: whatever a caller asks for, a
slot in use afterwards that was in use before holds what it held, or another list in the place of a
list.

## What is here

* `Custody.Step` and `Custody.Lasts` — one request after the other, while values stay in use.
* `Request.keeps_perform` — what one request leaves in the slots.
* `Custody.Step.agree` — and that for a step.
-/

set_option autoImplicit false

namespace ValueHeap

/-! ## Steps -/

/-- One request leads from what a caller has to what it has then, if it ends in a result or in an
error. -/
inductive Custody.Step (c : Custody) : Custody → Prop where
  | result {r : Request} (received : List Value) (hr : r.Permitted c)
      (hok : (r.perform c.heap).result = .ok received) : c.Step (c.after r received)
  | error {r : Request} {e : RunError} (hr : r.Permitted c)
      (herr : (r.perform c.heap).result = .error (.error e)) : c.Step (c.after r [])

/-- Requests lead from one to the other, and the values are in use after each of them. -/
def Custody.Lasts (vs : List Value) : Custody → Custody → Prop :=
  Relation.ReflTransGen fun c d => c.Step d ∧ ∀ v ∈ vs, d.heap.Names v

theorem Reachable.step {budget : Budget} {c d : Custody} (hc : Reachable budget c)
    (hd : c.Step d) : Reachable budget d := by
  cases hd with
  | result received hr hok => exact hc.result received hr hok
  | error hr herr => exact hc.error hr herr

theorem Reachable.lasts {budget : Budget} {c d : Custody} {vs : List Value}
    (hc : Reachable budget c) (hd : Custody.Lasts vs c d) : Reachable budget d := by
  induction hd with
  | refl => exact hc
  | tail _ hlast ih => exact ih.step hlast.1

/-! ## What a request leaves -/

/-- Unless there was a fault, the heap that is left agrees with the one before. -/
def Outcome.Keeps {α : Type} (h : Heap) (o : Outcome α) : Prop :=
  (∀ f, o.result ≠ .error (.fault f)) → h.Agree o.heap

theorem Outcome.Lands.keeps {α : Type} {h : Heap} {o : Outcome α}
    (ho : o.Lands (fun _ k => h.Agree k) h.Agree) : o.Keeps h := by
  intro hnot
  rcases o with ⟨(e | f) | a, k, es⟩
  · exact ho
  · exact absurd rfl (hnot f)
  · exact ho

namespace Heap

variable {h : Heap} {held : Multiset Slot}

theorem Agree.refl (h : Heap) : h.Agree h := (Extends.refl h).agree

/-- Nothing but the slots matters. -/
theorem Agree.of_cells {k : Heap} (hcells : k.cells = h.cells) : h.Agree k := by
  refine Extends.agree fun s p hp => ?_
  rwa [find?, cell?, hcells]

theorem agree_pushItem (h : Heap) (s : Slot) (item : Value) : h.Agree (h.pushItem s item).2 := by
  rw [pushItem]
  split
  · next refcount items hc => exact agree_put_list (access_eq_ok_iff.1 hc)
  · exact Agree.refl h
  · exact Agree.refl h

theorem agree_replaceItem (h : Heap) (s : Slot) (index : Nat) (item : Value) :
    h.Agree (h.replaceItem s index item).2 := by
  rw [replaceItem]
  split
  · next refcount items hc =>
    split
    · exact agree_put_list (access_eq_ok_iff.1 hc)
    · exact Agree.refl h
  · exact Agree.refl h
  · exact Agree.refl h

/-- Contents go to an empty slot, or what they refer to is given back. -/
theorem agree_allocate {p : Payload} (hs : h.Sound (p.children + held)) :
    h.Agree (h.allocate p).2 := by
  rw [allocate]
  cases hb : h.budget.charge p.size with
  | ok budget => exact (extends_place (hs.beside budget h.depth).free p).agree
  | error e =>
    cases e with
    | fault f => exact .of_cells rfl
    | error e =>
      have hext := hs.release.2.2
      rcases hrelease : h.release p.children with ⟨_ | _, k⟩ <;> rw [hrelease] at hext <;>
        exact hext.agree_symm

end Heap

namespace Action

variable {α β : Type}

theorem heap_map (f : α → β) (x : Action α) (h : Heap) : ((f <$> x) h).heap = (x h).heap := by
  rw [map_eq_pure_bind]
  show (Action.bind x _ h).heap = _
  rw [Action.bind]
  rcases x h with ⟨_ | a, k, es⟩ <;> rfl

theorem heap_change (f : Heap → Except Fault α × Heap) (h : Heap) :
    (change f h).heap = (f h).2 := by
  rw [change]
  rcases f h with ⟨_ | _, k⟩ <;> rfl

theorem heap_allocate (p : Payload) (h : Heap) : (allocate p h).heap = (h.allocate p).2 := by
  rw [allocate]
  rcases h.allocate p with ⟨_ | _, k⟩ <;> rfl

theorem cells_consult (f : Heap → Nat → Answer α) (h : Heap) :
    (consult f h).heap.cells = h.cells := by
  rw [consult]
  generalize f h h.levelsLeft = answer
  rcases answer with ⟨es, (_ | _) | _⟩ <;> rfl

end Action

namespace Request

variable {h : Heap} {held : Multiset Slot}

/-- What is carried on top of a heap leaves the heap as it was. -/
theorem keeps_received {x : Action Value}
    (hx : (x h).Lands (fun v k => h.Carries held {v} k) (h.Carries held 0)) :
    ((List.singleton <$> x) h).Keeps h := by
  refine (Action.lands_map (Action.lands_mono hx ?_ ?_)).keeps
  · exact fun _ _ hk => hk.kept.agree
  · exact fun _ hk => hk.kept.agree

theorem keeps_looked {α : Type} (f : Heap → Nat → Answer α) :
    (((fun _ => []) <$> Action.consult f) h : Outcome (List Value)).Keeps h := fun _ => by
  rw [Action.heap_map]
  exact .of_cells (Action.cells_consult f h)

theorem lands_given {v : Value} (hs : h.Sound (slotsOf {v} + held)) :
    (Action.release [v] h).Lands (fun _ k => h.Agree k) h.Agree := by
  have hv : h.Sound (([v].filterMap Value.slot? : List Slot) + held) := hs
  obtain ⟨hok, -, hext⟩ := hv.release
  exact Action.lands_change hok hext.agree_symm

/-- **A request leaves in each slot that stays in use what was there**, or another list in the place
of a list. -/
theorem keeps_perform {r : Request} (hs : h.Sound (slotsOf r.takes + held))
    (hlooks : ∀ v ∈ r.looksAt, h.Names v) (hopen : ∀ p, r = .allocate p → p.isOpen = true) :
    (r.perform h).Keeps h := by
  -- for the requests that hand over nothing
  have hs' (htakes : r.takes = []) : h.Sound held := by
    rw [htakes] at hs
    exact zero_add held ▸ hs
  cases r with
  | build o => exact keeps_received (Object.lands_build o h held (hs' rfl))
  | take v =>
    have hv : h.Names v := by
      rintro s rfl
      exact hs.find?_of_held (Multiset.mem_add.2 (Or.inl (mem_slotsOf.2 (by simp [takes]))))
    obtain ⟨o, ho⟩ := Heap.exists_snapshot hs.coherent hv
    refine (Action.lands_map (Action.lands_look_bind ho ?_)).keeps
    exact Action.lands_bind (lands_given hs) fun _ _ hk => Action.lands_pure hk
  | clone v => exact keeps_received (lands_shared (hs' rfl) (hlooks v List.mem_cons_self))
  | drop v =>
    refine Outcome.Lands.keeps (Action.lands_map ?_)
    exact lands_given hs
  | typeValue ty =>
    refine keeps_received (lands_typeValue (hs' rfl) ?_)
    rintro s rfl
    exact hlooks _ List.mem_cons_self
  | newClass name base => exact keeps_received (lands_newClass (hs' rfl) hlooks)
  | newInstance cls =>
    exact keeps_received (lands_newInstance (hs' rfl) (hlooks cls List.mem_cons_self))
  | allocate p =>
    rw [takes, Payload.slotsOf_parts (hopen p rfl)] at hs
    intro _
    rw [perform, Action.heap_map, Action.heap_allocate]
    exact Heap.agree_allocate hs
  | push s item =>
    intro _
    rw [perform, Action.heap_map, Action.heap_change]
    exact Heap.agree_pushItem h s item
  | replace s i item =>
    intro _
    rw [perform, Action.heap_map, Action.heap_change]
    exact Heap.agree_replaceItem h s i item
  | copy v => exact keeps_received (lands_deepCopy (hs' rfl) (hlooks v List.mem_cons_self))
  | fingerprint v => exact keeps_looked _
  | compare mode a b op => exact keeps_looked _
  | compareHere mode a b op => exact keeps_looked _
  | compareByFallback mode a b op => exact keeps_looked _
  | enter =>
    intro _
    simp only [perform, Heap.enter]
    by_cases hlevel : 0 < h.levelsLeft
    · simp only [if_pos hlevel]
      exact .of_cells rfl
    · simp only [if_neg hlevel]
      exact Heap.Agree.refl h
  | leave => exact fun _ => .of_cells rfl

end Request

/-- A step leaves in each slot that stays in use what was there, or another list in the place of a
list. -/
theorem Custody.Step.agree {c d : Custody} (hs : c.heap.Sound (slotsOf c.owned))
    (hd : c.Step d) : c.heap.Agree d.heap := by
  have hkeeps {r : Request} (hr : r.Permitted c) : (r.perform c.heap).Keeps c.heap := by
    have hheld : c.heap.Sound (slotsOf r.takes + slotsOf (c.owned - r.takes)) := by
      rwa [← slotsOf_add, add_tsub_cancel_of_le hr.takes]
    exact Request.keeps_perform hheld hr.looksAt hr.contents
  cases hd with
  | result received hr hok => exact hkeeps hr fun f hf => by cases hok.symm.trans hf
  | error hr herr => exact hkeeps hr fun f hf => by cases herr.symm.trans hf

end ValueHeap
