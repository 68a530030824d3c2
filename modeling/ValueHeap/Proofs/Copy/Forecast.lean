import ValueHeap.Proofs.Fingerprint.Rearranged
import ValueHeap.Proofs.Foretold

/-!
# What a copy will come to

Copying changes the heap at every step, but never what it still has to copy: the contents that were
there at the start stay as they are.  So how a copy ends and what it reports can be told from the
heap that it starts on, by a tour through the value that changes nothing: each place is checked
before its parts are gone through, and a container is reported behind them.

The heap gets fuller and other slots are taken by the copies that are done; these are given back
behind an error without a report.

## What is here

* `Copy.forecast` — the tour.
* `Copy.Setting` — a heap on the way of a copy.
* `Copy.foretold_items`, `Copy.foretold_entries` and `Copy.foretold_elements` — the parts of a
  container.
* `paid_deepCopy` — **a copy is as it was told**, as far as that is paid for.
* `foretold_deepCopy` — a copy with room for all of it.
-/

set_option autoImplicit false

namespace ValueHeap

namespace Payload

/-- The report of a container that is copied, with the level of its parts. -/
def copyReport (depth : Nat) : Payload → List Event
  | list items => [.copied .list items.length depth]
  | tuple items => [.copied .tuple items.length depth]
  | dict entries => [.copied .dict entries.length depth]
  | set elements => [.copied .set elements.length depth]
  | _ => []

end Payload

namespace Copy

/-- Reports a value with so many levels left, if it is a container. -/
def finish (h : Heap) (levels : Nat) : Value → Answer Unit
  | .ref s =>
    ⟨(h.find? s).elim [] (Payload.copyReport (h.budget.depthLimit - levels + 1)), .ok ()⟩
  | _ => pure ()

/-- What the copy of a value will come to while so many levels are left. -/
def forecast (h : Heap) : Nat → Value → Answer Unit :=
  h.tour .deepCopy (h.check .deepCopy) (finish h)

variable {start base h : Heap} {held : Multiset Slot} {levels n : Nat} {s : Slot} {p : Payload}
  {v : Value} {copy : Value → Action Value}

/-! ## One place of the tour -/

theorem finish_ref (hp : start.find? s = some p) :
    finish start levels (.ref s) =
      ⟨p.copyReport (start.budget.depthLimit - levels + 1), .ok ()⟩ := by
  rw [finish, hp]
  rfl

theorem result_finish (h : Heap) (levels : Nat) (v : Value) :
    (finish h levels v).result = .ok () := by
  cases v <;> rfl

/-- A tour meets no fault. -/
theorem forecast_ne_fault (h : Heap) (v : Value) (f : Fault) (levels : Nat) :
    (forecast h h.levelsLeft v).result ≠ .error (.fault f levels) := by
  rw [forecast, Heap.result_tour (result_finish h)]
  have hcheck (n : Nat) (v : Value) :
      (h.check .deepCopy n v).result = (h.check .deepCopy n v).result := rfl
  obtain ⟨met, -, -, -, ⟨-, heq⟩ | ⟨way, x, e, -, -, heq⟩⟩ := Heap.tour_cases hcheck v <;>
    rw [heq] <;> nofun

theorem forecast_immediate (hv : v.slot? = none) : forecast start levels v = pure () := by
  rw [forecast, Heap.tour_leaf (Heap.next_eq_nil hv), Heap.check_immediate hv]
  cases v with
  | ref s => cases hv
  | _ => rfl

theorem forecast_shared (hp : start.find? s = some p) (hrebuilt : p.isRebuilt = false)
    (hinstance : ∀ cls, p ≠ .userInstance cls) : forecast start levels (.ref s) = pure () := by
  have hnext : start.next .deepCopy (.ref s) = [] :=
    (Heap.next_ref hp).trans (StructuralOperation.partsOf_eq_nil hrebuilt)
  rw [forecast, Heap.tour_leaf hnext, Heap.check_leaf hp hrebuilt hinstance, finish_ref hp]
  cases p <;> first | rfl | cases hrebuilt

theorem forecast_instance {cls : Slot} (levels : Nat)
    (hp : start.find? s = some (.userInstance cls)) :
    forecast start levels (.ref s) =
      Answer.raise (.unsupported .deepCopy (start.className cls)) := by
  have hnext : start.next .deepCopy (.ref s) = [] := Heap.next_ref hp
  rw [forecast, Heap.tour_leaf hnext, Heap.check_instance hp]
  rfl

theorem forecast_refused (hp : start.find? s = some p) (hrebuilt : p.isRebuilt = true) :
    forecast start 0 (.ref s) =
      Answer.refuse start.budget.depthLimit (.resource start.budget.noLevelLeft) := by
  rw [forecast, Heap.tour, Heap.check_refused hp hrebuilt]
  rfl

theorem forecast_container (hp : start.find? s = some p) (hrebuilt : p.isRebuilt = true) :
    forecast start (n + 1) (.ref s) = forM p.copiedParts (forecast start n) >>= fun _ =>
      ⟨p.copyReport (start.budget.depthLimit - (n + 1) + 1), .ok ()⟩ := by
  rw [forecast, Heap.tour, Heap.check_entered hp hrebuilt, pure_bind, Heap.next_ref hp,
    finish_ref hp]
  rfl

/-! ## Heaps on the way -/

/-- A heap on the way of a copy that started on another one, where so many levels are left. -/
structure Setting (start : Heap) (held : Multiset Slot) (levels : Nat) (h : Heap) : Prop where
  closed : start.Closed
  sound : h.Sound held
  kept : start.Extends h
  limits : h.budget.limits = start.budget.limits
  levels : h.levelsLeft = levels

theorem Setting.refl (hs : h.Sound held) : Setting h held h.levelsLeft h :=
  ⟨hs.closed, hs, Heap.Extends.refl h, rfl, rfl⟩

/-- The setting stays while values are carried. -/
theorem Setting.carries {mine : Multiset Value} (hbase : Setting start held levels base)
    (hh : base.Carries held mine h) : Setting start (slotsOf mine + held) levels h where
  closed := hbase.closed
  sound := hh.sound
  kept := hbase.kept.trans hh.kept
  limits := hh.removable.limits.trans hbase.limits
  levels := by
    rw [← hbase.levels, Heap.levelsLeft, Heap.levelsLeft, hh.removable.depth, Budget.depthLimit,
      Budget.depthLimit, hh.removable.limits]

/-- One level further down there is one less left. -/
theorem Setting.down (hh : Setting start held (n + 1) h) :
    Setting start held n { h with depth := h.depth + 1 } where
  closed := hh.closed
  sound := hh.sound.beside h.budget (h.depth + 1)
  kept := hh.kept
  limits := hh.limits
  levels := by
    have hlevels : h.budget.depthLimit - h.depth = n + 1 := hh.levels
    show h.budget.depthLimit - (h.depth + 1) = n
    omega

/-- Copies are as they were told, from any heap on the way on. -/
def Foretold (start : Heap) (levels : Nat) (copy : Value → Action Value) : Prop :=
  ∀ (h : Heap) (held : Multiset Slot) (v : Value), Setting start held levels h → start.Names v →
    Action.Foretold (fun _ _ => True) (forecast start levels v) (copy v) h

/-! ## Parts of containers -/

theorem foretold_items (htold : Foretold start n copy) (hcopy : Lands copy)
    (hbase : Setting start held n base) {values done : List Value}
    (hvalues : ∀ v ∈ values, start.Names v) (hh : base.Carries held done h) :
    Action.Foretold (fun copied _ => copied.length = done.length + values.length)
      (forM values (forecast start n)) (items copy done values) h := by
  induction values generalizing done h with
  | nil => exact Action.foretold_pure rfl
  | cons v values ih =>
    obtain ⟨hv, hvalues⟩ := List.forall_mem_cons.1 hvalues
    have hlands := hcopy.carries hh (hbase.kept.names hv)
    have hcopied := (htold h _ v (hbase.carries hh) hv).and_lands hlands
    rw [List.forM_cons]
    refine Action.foretold_bind
      (Action.foretold_onError hcopied hlands fun k hk => Action.exists_release hk) ?_
    rintro copied k ⟨-, hk⟩
    have hdone : base.Carries held (done ++ [copied] : List Value) k := by
      rwa [← Multiset.coe_add, Multiset.coe_singleton, add_comm]
    refine (ih hvalues hdone).mono fun ws l hl => ?_
    rw [hl, List.length_append, List.length_cons, List.length_cons, List.length_nil]
    omega

theorem foretold_entries (htold : Foretold start n copy) (hcopy : Lands copy)
    (hbase : Setting start held n base) {entries done : List Entry}
    (hentries : ∀ e ∈ entries, start.Names e.key.value ∧ start.Names e.value)
    (hh : base.Carries held (partsOf done) h) :
    Action.Foretold (fun copied _ => copied.length = done.length + entries.length)
      (forM (entries.map Entry.value) (forecast start n)) (Copy.entries copy done entries) h := by
  induction entries generalizing done h with
  | nil => exact Action.foretold_pure rfl
  | cons e entries ih =>
    obtain ⟨⟨hkey, hvalue⟩, hentries⟩ := List.forall_mem_cons.1 hentries
    have hlands := hcopy.carries hh (hbase.kept.names hvalue)
    have hcopied := (htold h _ e.value (hbase.carries hh) hvalue).and_lands hlands
    rw [List.map_cons, List.forM_cons]
    refine Action.foretold_bind
      (Action.foretold_onError hcopied hlands fun k hk => Action.exists_release hk) ?_
    rintro copied k ⟨-, hk⟩
    have hname : k.Names e.key.value := hk.kept.names (hbase.kept.names hkey)
    refine Action.foretold_bind_pure ((Action.foretold_retain hname).and_lands (B := fun _ => True)
      (Action.lands_retain hk hname)) ?_
    rintro _ l ⟨rfl, -, -, hl⟩
    have hdone : base.Carries held (partsOf (done ++ [⟨⟨e.key.value, e.key.hash⟩, copied⟩])) l := by
      rwa [partsOf_append, partsOf_singleton, add_comm, add_assoc]
    refine (ih hentries hdone).mono fun es m hm => ?_
    rw [hm, List.length_append, List.length_cons, List.length_cons, List.length_nil]
    omega

theorem foretold_elements {elements : List HashedKey} (hnames : ∀ e ∈ elements, h.Names e.value)
    {mine : Multiset Value} (hh : base.Carries held mine h) :
    Action.Foretold (fun shared _ => shared.length = elements.length) (pure ())
      (Copy.elements elements) h := by
  induction elements generalizing h mine with
  | nil => exact Action.foretold_pure rfl
  | cons e elements ih =>
    obtain ⟨he, hnames⟩ := List.forall_mem_cons.1 hnames
    refine Action.foretold_bind_pure ((Action.foretold_retain he).and_lands (B := fun _ => True)
      (Action.lands_retain hh he)) ?_
    rintro _ k ⟨rfl, -, hext, hk⟩
    refine Action.foretold_bind_pure (ih (fun f hf => hext.names (hnames f hf)) hk) ?_
    intro shared l hlength
    exact Action.foretold_pure (congrArg (· + 1) hlength)

/-! ## Containers -/

/-- The copy of a container is placed behind those of its parts, and reported. -/
theorem foretold_container {ty : BuiltinType} {length : Nat} {q : Payload} {mine : Multiset Value}
    (hh : base.Carries held mine h) (hslots : slotsOf mine = q.children)
    (hsize : (Event.copied ty length base.depth).bytes = q.size)
    (hreport : p.copyReport base.depth = [.copied ty length base.depth]) :
    Action.Foretold (fun _ _ => True) ⟨p.copyReport base.depth, .ok ()⟩ (container ty length q)
      h := by
  have hs := hh.sound
  rw [hslots] at hs
  rw [hreport]
  exact Action.foretold_place hsize hh.removable.depth hs.release.1

/-- The copy of a list or of a tuple, after its level is entered. -/
theorem foretold_sequence {ty : BuiltinType} {q : List Value → Payload}
    (htold : Foretold start n copy) (hcopy : Lands copy) (hbase : Setting start held n base)
    {vs : List Value} (hvs : ∀ v ∈ vs, start.Names v) (hparts : p.copiedParts = vs)
    (hslots : ∀ ws : List Value, slotsOf (ws : Multiset Value) = (q ws).children)
    (hq : ∀ ws : List Value, ws.length = vs.length →
      (Event.copied ty ws.length base.depth).bytes = (q ws).size ∧
        p.copyReport base.depth = [.copied ty ws.length base.depth]) :
    Action.Foretold (fun _ _ => True)
      (forM p.copiedParts (forecast start n) >>= fun _ => ⟨p.copyReport base.depth, .ok ()⟩)
      (items copy [] vs >>= fun ws => container ty ws.length (q ws)) base := by
  rw [hparts]
  have hnone := Heap.Carries.refl hbase.sound
  refine Action.foretold_bind ((foretold_items htold hcopy hbase hvs hnone).and_lands
    (lands_items hcopy hbase.sound (fun v hv => hbase.kept.names (hvs v hv)) hnone)) ?_
  rintro ws k ⟨hlength, hk⟩
  rw [List.length_nil, Nat.zero_add] at hlength
  exact foretold_container hk (hslots ws) (hq ws hlength).1 (hq ws hlength).2

/-- A way to copy parts that is there if there are levels left, and that is as it was told. -/
inductive Down (start : Heap) : Nat → Option (Value → Action Value) → Prop
  | refused : Down start 0 none
  | entered {n : Nat} {copy : Value → Action Value} (hcopy : Lands copy)
      (htold : Foretold start n copy) : Down start (n + 1) (some copy)

/-- A container is refused, or its contents are copied one level further down. -/
theorem foretold_contents {inside : Option (Value → Action Value)}
    {x : (Value → Action Value) → Action Value} (hinside : Down start levels inside)
    (hp : start.find? s = some p) (hrebuilt : p.isRebuilt = true)
    (hh : Setting start held levels h)
    (hx : ∀ n copy, Lands copy → Foretold start n copy → ∀ base, Setting start held n base →
      Action.Foretold (fun _ _ => True)
        (forM p.copiedParts (forecast start n) >>= fun _ => ⟨p.copyReport base.depth, .ok ()⟩)
        (x copy) base) :
    Action.Foretold (fun _ _ => True) (forecast start levels (.ref s)) (ofValue.contents inside x)
      h := by
  have hlimit : h.budget.depthLimit = start.budget.depthLimit := by
    rw [Budget.depthLimit, Budget.depthLimit, hh.limits]
  cases hinside with
  | refused =>
    have herror : h.budget.noLevelLeft = start.budget.noLevelLeft := by
      rw [Budget.noLevelLeft, Budget.noLevelLeft, hlimit]
    rw [forecast_refused hp hrebuilt, ← hlimit, ← herror]
    exact ⟨rfl, fun _ ha => by cases ha⟩
  | @entered n copy hcopy htold =>
    have hdepth : h.depth = start.budget.depthLimit - (n + 1) := by
      have hlevels : h.budget.depthLimit - h.depth = n + 1 := hh.levels
      omega
    rw [forecast_container hp hrebuilt, ← hdepth]
    exact Action.foretold_oneLevelDown (hx n copy hcopy htold _ hh.down)

theorem foretold_ofValue {inside : Option (Value → Action Value)}
    (hinside : Down start levels inside) : Foretold start levels (ofValue inside) := by
  intro h held v hh hv
  cases v with
  | ref s =>
    obtain ⟨p, -, hp⟩ := Heap.exists_read hv
    have hnames {x : Value} (hx : x ∈ p.parts) : start.Names x := hh.closed.names hp hx
    have hread : h.read s = .ok p := Heap.read_eq_ok_iff.2 (hh.kept s p hp)
    refine Action.foretold_look_bind hread ?_
    cases p with
    | list vs =>
      refine foretold_contents hinside hp rfl hh fun n copy hcopy htold base hbase => ?_
      exact foretold_sequence htold hcopy hbase (fun v hv => hnames hv) rfl (fun _ => rfl)
        fun ws hws => ⟨rfl, by rw [Payload.copyReport, hws]⟩
    | tuple vs =>
      refine foretold_contents hinside hp rfl hh fun n copy hcopy htold base hbase => ?_
      exact foretold_sequence htold hcopy hbase (fun v hv => hnames hv) rfl (fun _ => rfl)
        fun ws hws => ⟨rfl, by rw [Payload.copyReport, hws]⟩
    | dict es =>
      refine foretold_contents hinside hp rfl hh fun n copy hcopy htold base hbase => ?_
      have hes := Compare.entriesIn_of_closed hh.closed hp
      have hnone : base.Carries held (partsOf []) base := Heap.Carries.refl hbase.sound
      refine Action.foretold_bind ((foretold_entries htold hcopy hbase hes hnone).and_lands
        (lands_entries hcopy hbase.sound (fun e he => ⟨hbase.kept.names (hes e he).1,
          hbase.kept.names (hes e he).2⟩) hnone)) ?_
      rintro copied k ⟨hlength, hk, -⟩
      rw [List.length_nil, Nat.zero_add] at hlength
      exact foretold_container hk rfl rfl (by rw [Payload.copyReport, hlength])
    | set es =>
      refine foretold_contents hinside hp rfl hh fun n copy hcopy htold base hbase => ?_
      have hes : ∀ e ∈ es, base.Names e.value := fun e he =>
        hbase.kept.names (Compare.elementsIn_of_closed hh.closed hp e he)
      have hnone := Heap.Carries.refl hbase.sound
      refine Action.foretold_bind_pure ((foretold_elements hes hnone).and_lands
        (B := fun _ => True) (lands_elements hes hnone)) ?_
      rintro shared k ⟨hlength, -, hk⟩
      rw [add_zero] at hk
      exact foretold_container (p := .set es) hk rfl rfl (by rw [Payload.copyReport, hlength])
    | userInstance cls =>
      have hname := Heap.nameOfType_instance hh.sound.fits (hh.kept s _ hp)
      rw [← Heap.className_of_extends hh.kept (hh.closed s _ hp cls List.mem_cons_self)] at hname
      rw [forecast_instance levels hp]
      exact Action.foretold_look_bind hname Action.foretold_raise
    | _ =>
      rw [forecast_shared hp rfl (by rintro cls ⟨⟩)]
      exact (Action.foretold_retain (hh.kept.names hv)).mono fun _ _ _ => trivial
  | _ =>
    rw [forecast_immediate rfl]
    exact Action.foretold_pure trivial

/-- **With any number of levels left, a copy is as it was told.** -/
theorem foretold_within (levels : Nat) : Foretold start levels (within levels) := by
  induction levels with
  | zero => exact foretold_ofValue .refused
  | succ levels ih => exact foretold_ofValue (.entered (lands_within levels) ih)

end Copy

/-- **A copy is as it was told** from the heap that it starts on, as far as that is paid for. -/
theorem paid_deepCopy {h : Heap} {held : Multiset Slot} {v : Value} (hs : h.Sound held)
    (hv : h.Names v) :
    Action.Foretold (fun _ _ => True) (Copy.forecast h h.levelsLeft v) (deepCopy v) h :=
  Copy.foretold_within h.levelsLeft h held v (.refl hs) hv

/-- With room for all that is copied, a copy is as it was told. -/
theorem foretold_deepCopy {h : Heap} {held : Multiset Slot} {v : Value} (hs : h.Sound held)
    (hv : h.Names v) (rest : Nat)
    (hroom : h.budget.Affords ((Copy.forecast h h.levelsLeft v).bytes + rest)) :
    (deepCopy v h).Follows (fun _ k => True ∧ k.budget.Affords rest)
      (Copy.forecast h h.levelsLeft v) :=
  (paid_deepCopy hs hv).follows hroom (Copy.forecast_ne_fault h v)

end ValueHeap
