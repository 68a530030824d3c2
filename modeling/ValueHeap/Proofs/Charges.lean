import ValueHeap.Proofs.Served
import ValueHeap.Proofs.Heap.Removable

/-!
# What has been charged for

Contents are charged for before they are placed, and what is refunded for them is reckoned from what
they are when their slot is emptied.  A list that has grown in the meantime gets back more than was
paid for it, and the accounts then show less memory in use than there is.  They never show more:
what has been charged for lies in its slot until it is refunded.

So the limits hold in the accounts, and they hold for the contents in use as long as no list grows.

An allocation is counted for contents that are placed.  The one exception are contents with which
the memory in use would no longer fit a word, where it has no limit, and there are none of these
while all contents that were ever to be placed would fit a word together.

## What is here

* `Heap.Charged` — the accounts are within the limits, and show no more than is in use.
* `Heap.Charged.put`, `Heap.Charged.vacate` and `Heap.Charged.place` — the three ways in which a
  slot changes, and `Heap.Charged.overrun` for a charge that breaks off.
* `Heap.Charged.perform` and `Heap.Charged.run` — the accounts after a call and after several.
* `Heap.Charged.overrun_eq_zero` — nothing is counted but what is placed.
* `accounts_exact` — the accounts in whatever calls or requests bring about.
-/

set_option autoImplicit false

namespace ValueHeap

/-- An amount comes to the sum of what it comes to for the slots in use. -/
theorem sum_live (cells : List (Option Cell)) (f : Payload → Nat) :
    ((cells.filterMap id).map fun c => f c.payload).sum = totalIn f cells := by
  induction cells with
  | nil => rfl
  | cons c rest ih =>
    rw [totalIn_cons, ← ih]
    cases c with
    | none => exact (Nat.zero_add _).symm
    | some c => rfl

namespace Heap

/-! ## Accounts -/

/-- The accounts are within the limits, and show no more than the contents in use take up.  They
show just that unless a list has grown. -/
structure Charged (h : Heap) (limits : Limits) (usage : Usage) (grown : Bool) : Prop where
  free : h.FreeExact
  budget : h.budget = .tracked limits usage
  allocations : ∀ most, limits.allocations = some most → usage.allocations ≤ most
  memory : ∀ most, limits.memory = some most → usage.memory ≤ most
  covered : usage.memory ≤ h.contentsSize
  exact : grown = false → usage.memory = h.contentsSize

namespace Charged

variable {h : Heap} {limits : Limits} {usage : Usage} {grown : Bool} {s : Slot} {c d : Cell}
  {p : Payload}

theorem put (hh : h.Charged limits usage grown) (hc : h.cell? s = some c) (grows : Bool)
    (hgrow : c.payload.size ≤ d.payload.size)
    (hsame : grows = false → d.payload.size = c.payload.size) :
    (h.put s d).Charged limits usage (grown || grows) where
  free := hh.free.put hc
  budget := hh.budget
  allocations := hh.allocations
  memory := hh.memory
  covered := by
    have hsize : (h.put s d).contentsSize + c.payload.size = h.contentsSize + d.payload.size :=
      total_put hc
    have := hh.covered
    omega
  exact hno := by
    rw [Bool.or_eq_false_iff] at hno
    have hsize : (h.put s d).contentsSize + c.payload.size = h.contentsSize + d.payload.size :=
      total_put hc
    have := hh.exact hno.1
    have := hsame hno.2
    omega

/-- No more is refunded than the accounts show, and what is left is covered by what is left. -/
theorem vacate (hh : h.Charged limits usage grown) (hc : h.cell? s = some c) :
    (h.vacate s c).Charged limits { usage with memory := usage.memory - c.payload.size } grown where
  free := hh.free.vacate hc
  budget := by
    rw [Heap.vacate, hh.budget]
    rfl
  allocations := hh.allocations
  memory most hmost := Nat.le_trans (Nat.sub_le _ _) (hh.memory most hmost)
  covered := by
    have hsize : (h.vacate s c).contentsSize + c.payload.size = h.contentsSize := total_vacate hc
    have := hh.covered
    show usage.memory - c.payload.size ≤ _
    omega
  exact hno := by
    have hsize : (h.vacate s c).contentsSize + c.payload.size = h.contentsSize := total_vacate hc
    have := hh.exact hno
    show usage.memory - c.payload.size = _
    omega

/-- What is charged for has room under the limits. -/
theorem place (hh : h.Charged limits usage grown) {b : Budget}
    (hb : h.budget.charge p.size = .ok b) :
    (Heap.place { h with budget := b } p).2.Charged limits
      ⟨usage.allocations + 1, usage.memory + p.size⟩ grown := by
  have hfree := hh.free.beside b h.depth
  have hsize : (Heap.place { h with budget := b } p).2.contentsSize = h.contentsSize + p.size :=
    total_place hfree p
  rw [hh.budget] at hb
  obtain ⟨rfl, hallocations, -, hmemory⟩ := Budget.eq_of_charge hb
  refine ⟨hfree.place p, budget_place _ p, fun most hmost => ?_, hmemory, ?_, fun hno => ?_⟩
  · exact hallocations most hmost
  · rw [hsize]
    exact Nat.add_le_add_right hh.covered _
  · rw [hsize, ← hh.exact hno]

/-- A charge that breaks off counts the allocation, if memory has no limit. -/
theorem overrun (hh : h.Charged limits usage grown) {f : Fault}
    (hf : h.budget.charge p.size = .error (.fault f)) :
    ({ h with budget := h.budget.overrun } : Heap).Charged limits
      ⟨usage.allocations + limits.memory.isNone.toNat, usage.memory⟩ grown where
  free := hh.free.beside _ h.depth
  budget := by
    show h.budget.overrun = _
    rw [hh.budget, Budget.overrun]
    cases limits.memory <;> rfl
  allocations most hmost := by
    rw [hh.budget] at hf
    have hroom := (Budget.of_charge_fault hf).2.1 most hmost
    have hone := limits.memory.isNone.toNat_le
    show usage.allocations + _ ≤ most
    omega
  memory := hh.memory
  covered := hh.covered
  exact := hh.exact

/-! ## Calls -/

/-- Nothing is charged for references that are given back. -/
theorem steady : Steady fun k =>
    ∃ memory ≤ usage.memory, k.Charged limits { usage with memory } grown where
  recount {_ _ c} n hc hk := by
    obtain ⟨memory, hle, hk⟩ := hk
    have hput := hk.put (d := { c with refcount := n }) hc false (Nat.le_refl _) fun _ => rfl
    rw [Bool.or_false] at hput
    exact ⟨memory, hle, hput⟩
  vacate hc hk := by
    obtain ⟨memory, hle, hk⟩ := hk
    exact ⟨_, Nat.le_trans (Nat.sub_le _ _) hle, hk.vacate hc⟩

/-- Contents to be placed are counted if they are placed or if the charge for them breaks off. -/
theorem allocate (hh : h.Charged limits usage grown) (p : Payload) :
    ∃ memory ≤ usage.memory + p.size, (h.allocate p).2.Charged limits
      ⟨usage.allocations + ((Call.allocate p).places h).toNat +
        ((Call.allocate p).overruns h).toNat, memory⟩ grown := by
  rw [Call.places, Call.overruns]
  cases hb : h.budget.charge p.size with
  | ok b =>
    rw [allocate_of_ok hb]
    exact ⟨_, Nat.le_refl _, hh.place hb⟩
  | error e =>
    cases e with
    | fault f =>
      have hlimits : h.budget.limits = limits := by rw [hh.budget, Budget.limits]
      rw [allocate_of_fault hb, hlimits]
      exact ⟨usage.memory, Nat.le_add_right _ _, hh.overrun hb⟩
    | error e =>
      obtain ⟨⟨e', he⟩, memory, hle, hk⟩ :=
        steady.refused ⟨_, Nat.le_refl _, hh⟩ hb fun f hf => by cases hf
      rw [he]
      exact ⟨memory, Nat.le_trans hle (Nat.le_add_right _ _), hk⟩

/-- A call is counted if it places contents or if the charge for them breaks off.  The memory in use
grows by no more than the contents. -/
theorem perform (hh : h.Charged limits usage grown) {call : Call}
    (hcall : call.isOverwrite = false) :
    ∃ memory ≤ usage.memory + call.bytes, (call.perform h).Charged limits
      ⟨usage.allocations + (call.places h).toNat + (call.overruns h).toNat, memory⟩
      (grown || call.isPush) := by
  cases call.effect h with
  | @allocate p hcall =>
    subst hcall
    have hgrown : (grown || (Call.allocate p).isPush) = grown := Bool.or_false grown
    rw [hgrown]
    exact hh.allocate p
  | @release s hcall =>
    subst hcall
    have hgrown : (grown || (Call.release s).isPush) = grown := Bool.or_false grown
    rw [hgrown]
    exact steady.release ⟨_, Nat.le_refl _, hh⟩ [s]
  | put hplaces hover hc hheap hgrow hsame =>
    rw [hplaces, hover, hheap]
    exact ⟨_, Nat.le_add_right _ _, hh.put hc call.isPush (hgrow hcall) (hsame hcall)⟩
  | beside _ hplaces hover hheap =>
    rw [hplaces, hover, hheap]
    refine ⟨usage.memory, Nat.le_add_right _ _, hh.free.beside h.budget _, hh.budget,
      hh.allocations, hh.memory, hh.covered, fun hno => hh.exact (Bool.or_eq_false_iff.1 hno).1⟩

theorem run (hh : h.Charged limits usage grown) {calls : List Call}
    (hcalls : ∀ call ∈ calls, call.isOverwrite = false) :
    ∃ memory, (h.run calls).Charged limits
      ⟨usage.allocations + h.placed calls + h.overrun calls, memory⟩
      (grown || calls.any Call.isPush) := by
  induction calls generalizing h usage grown with
  | nil =>
    refine ⟨usage.memory, ?_⟩
    rw [List.any_nil, Bool.or_false]
    exact hh
  | cons call rest ih =>
    obtain ⟨memory, -, hk⟩ := hh.perform (hcalls call List.mem_cons_self)
    obtain ⟨memory', hl⟩ := ih hk fun c hc => hcalls c (List.mem_cons_of_mem call hc)
    have hcount : usage.allocations + h.placed (call :: rest) + h.overrun (call :: rest) =
        usage.allocations + (call.places h).toNat + (call.overruns h).toNat +
          (call.perform h).placed rest + (call.perform h).overrun rest := by
      simp only [placed, Heap.overrun, tally]
      omega
    refine ⟨memory', ?_⟩
    rw [Bool.or_assoc] at hl
    rw [hcount]
    exact hl

/-- Contents that fit a word together with the memory in use do not overrun the accounts. -/
theorem overruns_eq_false (hh : h.Charged limits usage grown) {call : Call}
    (hfits : usage.memory + call.bytes < Budget.wordBound) : call.overruns h = false := by
  refine Bool.eq_false_iff.2 fun hover => ?_
  obtain ⟨p, f, rfl, hf⟩ := Call.exists_fault_of_overruns hover
  rw [hh.budget] at hf
  exact Nat.not_lt_of_le (Budget.of_charge_fault hf).2.2 hfits

/-- **Nothing is counted but what is placed**, while all contents to be placed would fit a word
together. -/
theorem overrun_eq_zero (hh : h.Charged limits usage grown) {calls : List Call}
    (hcalls : ∀ call ∈ calls, call.isOverwrite = false)
    (hfits : usage.memory + (calls.map Call.bytes).sum < Budget.wordBound) :
    h.overrun calls = 0 := by
  induction calls generalizing h usage grown with
  | nil => rfl
  | cons call rest ih =>
    rw [List.map_cons, List.sum_cons] at hfits
    obtain ⟨memory, hle, hk⟩ := hh.perform (hcalls call List.mem_cons_self)
    have hcall : call.overruns h = false := hh.overruns_eq_false (by omega)
    have hrest := ih hk (fun c hc => hcalls c (List.mem_cons_of_mem call hc))
      (show memory + _ < _ by omega)
    rw [Heap.overrun, tally, hcall]
    exact (Nat.zero_add _).trans hrest

end Charged

end Heap

/-- **The accounts are exact.**  Under any limits, and whatever calls are made but for contents put
in the place of others, the accounts show as many allocations as there were calls that placed
contents.  Only where memory has no limit, a call is counted as well that broke off because the
memory in use would no longer fit a word, and there was none if all contents that were to be placed
add up to what fits a word.  The accounts never show more allocations than the limit; they show no
more memory than the limit, and no more than the contents in use take up.  As long as no list grows
in place they show just what these take up, which is then within the limit too.  This holds of
whatever requests bring about, with an error or a fault at their end or without, and so of all that
can come about, where no request has broken off. -/
theorem accounts_exact (limits : Limits) :
    (∀ calls : List Heap.Call, (∀ call ∈ calls, call.isOverwrite = false) →
        let h := (Heap.empty (.under limits)).run calls
        let inUse := (h.live.map fun c => c.payload.size).sum
        ∃ usage, h.budget = .tracked limits usage ∧
          usage.allocations = (Heap.empty (.under limits)).placed calls +
            (Heap.empty (.under limits)).overrun calls ∧
          ((calls.map Heap.Call.bytes).sum < Budget.wordBound →
            (Heap.empty (.under limits)).overrun calls = 0) ∧
          (∀ most, limits.allocations = some most → usage.allocations ≤ most) ∧
          (∀ most, limits.memory = some most → usage.memory ≤ most) ∧
          usage.memory ≤ inUse ∧
          ((∀ call ∈ calls, call.isPush = false) →
            usage.memory = inUse ∧ ∀ most, limits.memory = some most → inUse ≤ most)) ∧
      (∀ requests : List Request, ∃ calls : List Heap.Call,
        (∀ call ∈ calls, call.isOverwrite = false) ∧
          ((∀ r ∈ requests, r.isPush = false) → ∀ call ∈ calls, call.isPush = false) ∧
          (Heap.empty (.under limits)).serve requests = (Heap.empty (.under limits)).run calls ∧
          (Heap.empty (.under limits)).overrun calls ≤
            (Heap.empty (.under limits)).brokenOff requests) ∧
      ∀ c, Reachable (.under limits) c → ∃ requests : List Request,
        c.heap = (Heap.empty (.under limits)).serve requests ∧
          (Heap.empty (.under limits)).brokenOff requests = 0 := by
  refine ⟨fun calls hcalls => ?_, fun requests => ?_, fun c hc => hc.exists_requests⟩
  · have hempty : (Heap.empty (.under limits)).Charged limits {} false :=
      { free := ⟨.nil, by simp [Heap.empty]⟩
        budget := rfl
        allocations := fun _ _ => Nat.zero_le _
        memory := fun _ _ => Nat.zero_le _
        covered := Nat.zero_le _
        exact := fun _ => rfl }
    obtain ⟨memory, hh⟩ := hempty.run hcalls
    intro h inUse
    have hinUse : inUse = h.contentsSize := sum_live h.cells.toList Payload.size
    refine ⟨_, hh.budget, congrArg (· + _) (Nat.zero_add _), fun hfits => ?_, hh.allocations,
      hh.memory, ?_, fun hpush => ?_⟩
    · exact hempty.overrun_eq_zero hcalls ((Nat.zero_add _).trans_lt hfits)
    · rw [hinUse]
      exact hh.covered
    · have hno : calls.any Heap.Call.isPush = false := by
        rw [List.any_eq_false]
        exact fun call hmem => Bool.eq_false_iff.1 (hpush call hmem)
      have hexact := hh.exact hno
      rw [hinUse]
      exact ⟨hexact, fun most hmost => hexact ▸ hh.memory most hmost⟩
  · obtain ⟨calls, hcalls, heq, hover⟩ := (Heap.empty (.under limits)).exists_calls_serve requests
    refine ⟨calls, fun call hmem => (hcalls call hmem).1, fun hrequests call hmem => ?_, heq, hover⟩
    refine Bool.eq_false_iff.2 fun hp => ?_
    obtain ⟨r, hr, hpush⟩ := (hcalls call hmem).2 hp
    rw [hrequests r hr] at hpush
    cases hpush

/-- A text and a list with it leave no room for another text.  When the list is given up, the
accounts show the text that is left. -/
theorem accounts_exact_text_left :
    let limits : Limits := { allocations := some 3, memory := some 200 }
    let calls : List Heap.Call :=
      [.allocate (.str "a"), .retain 0, .allocate (.list [.ref 0]), .allocate (.str "b"),
        .release 1]
    let h := (Heap.empty (.under limits)).run calls
    (∀ call ∈ calls, call.isOverwrite = false ∧ call.isPush = false) ∧
      (calls.map Heap.Call.bytes).sum < Budget.wordBound ∧
      h.live = [⟨1, .str "a"⟩] ∧ h.budget = .tracked limits ⟨2, 65⟩ := by
  intro limits calls h
  have hcalls : ∀ call ∈ calls, call.isOverwrite = false ∧ call.isPush = false := by
    decide
  have hfits : (calls.map Heap.Call.bytes).sum < Budget.wordBound := by decide +kernel
  have hlive : h.live = [⟨1, .str "a"⟩] := by decide +kernel
  have hplaced : (Heap.empty (.under limits)).placed calls = 2 := by decide +kernel
  obtain ⟨⟨allocations, memory⟩, hbudget, hcount, hover, -, -, -, hexact⟩ :=
    (accounts_exact limits).1 calls fun call hmem => (hcalls call hmem).1
  have hallocations : allocations = 2 := by
    rw [hover hfits, hplaced] at hcount
    exact hcount
  have hmemory : memory = 65 := by
    have hinUse := (hexact fun call hmem => (hcalls call hmem).2).1
    exact hinUse.trans (congrArg (fun live => (live.map fun c => c.payload.size).sum) hlive)
  exact ⟨hcalls, hfits, hlive, hallocations ▸ hmemory ▸ hbudget⟩

end ValueHeap
