import ValueHeap.Copy
import ValueHeap.Proofs.Action
import ValueHeap.Proofs.Faultless.Compare

/-!
# Copying keeps every count

A copy comes on top of what a heap holds, like a value that is built.  The keys of a dict and the
elements of a set are shared, so they fit in the copy as they did before, with the hashes that they
had.

## What is here

* `Copy.lands_items`, `Copy.lands_entries` and `Copy.lands_elements` — the parts of a container.
* `Copy.lands_within` and `lands_deepCopy` — the copy of a value.
-/

set_option autoImplicit false

namespace ValueHeap

namespace Copy

variable {start h : Heap} {held : Multiset Slot} {mine : Multiset Value}
  {copy : Value → Action Value}

/-- Whatever a heap holds, the copy of a value in use comes on top of it. -/
def Lands (copy : Value → Action Value) : Prop :=
  ∀ (h : Heap) (held : Multiset Slot) (v : Value), h.Sound held → h.Names v →
    (copy v h).Lands (fun w k => h.Carries held {w} k) (h.Carries held 0)

/-- The copy also comes on top of what is carried already. -/
theorem Lands.carries {v : Value} (hcopy : Lands copy) (hh : start.Carries held mine h)
    (hv : start.Names v) :
    (copy v h).Lands (fun w k => start.Carries held ({w} + mine) k)
      (start.Carries held mine) := by
  refine Action.lands_mono (hcopy h _ v hh.sound (hh.kept.names hv)) (fun w k hk => hh.trans hk)
    fun k hk => ?_
  rw [← zero_add mine]
  exact hh.trans hk

/-! ## Parts of containers -/

theorem lands_items (hcopy : Lands copy) (hstart : start.Sound held) {values done : List Value}
    (hvalues : ∀ v ∈ values, start.Names v) (hh : start.Carries held done h) :
    (items copy done values h).Lands (fun (copied : List Value) k => start.Carries held copied k)
      (start.Carries held 0) := by
  induction values generalizing done h with
  | nil => exact Action.lands_pure hh
  | cons v rest ih =>
    refine Action.lands_bind
      (Action.lands_onError (hcopy.carries hh (hvalues v List.mem_cons_self)) ?_) ?_
    · intro k hk
      exact Action.lands_cleanup hstart hk (add_zero _).symm
    intro copied k hk
    refine ih (fun w hw => hvalues w (List.mem_cons_of_mem v hw)) ?_
    rwa [← Multiset.coe_add, Multiset.coe_singleton, add_comm]

theorem lands_entries (hcopy : Lands copy) (hstart : start.Sound held) {entries done : List Entry}
    (hentries : ∀ e ∈ entries, start.Names e.key.value ∧ start.Names e.value)
    (hh : start.Carries held (partsOf done) h) :
    (Copy.entries copy done entries h).Lands
      (fun copied k => start.Carries held (partsOf copied) k ∧
        copied.map Entry.key = (done ++ entries).map Entry.key)
      (start.Carries held 0) := by
  induction entries generalizing done h with
  | nil => exact Action.lands_pure ⟨hh, by rw [List.append_nil]⟩
  | cons e rest ih =>
    obtain ⟨hkey, hvalue⟩ := hentries e List.mem_cons_self
    refine Action.lands_bind (Action.lands_onError (hcopy.carries hh hvalue) ?_) ?_
    · intro k hk
      exact Action.lands_cleanup hstart hk (add_zero _).symm
    intro copied k hk
    refine Action.lands_bind (Action.lands_retain hk (hk.kept.names hkey)) ?_
    rintro _ l ⟨rfl, -, hl⟩
    refine Action.lands_mono (ih (fun f hf => hentries f (List.mem_cons_of_mem e hf)) ?_) ?_
      fun _ hm => hm
    · rwa [partsOf_append, partsOf_singleton, add_comm, add_assoc]
    · rintro stored m ⟨hm, hkeys⟩
      refine ⟨hm, hkeys.trans ?_⟩
      simp

theorem lands_elements {elements : List HashedKey}
    (hnames : ∀ e ∈ elements, start.Names e.value) (hh : start.Carries held mine h)
    {bad : Heap → Prop} :
    (Copy.elements elements h).Lands
      (fun shared k => shared = elements ∧ start.Carries held (elementsOf shared + mine) k)
      bad := by
  induction elements generalizing mine h with
  | nil => exact Action.lands_pure ⟨rfl, (zero_add mine).symm ▸ hh⟩
  | cons e rest ih =>
    refine Action.lands_bind
      (Action.lands_retain hh (hh.kept.names (hnames e List.mem_cons_self))) ?_
    rintro _ k ⟨rfl, -, hk⟩
    refine Action.lands_bind (ih (fun f hf => hnames f (List.mem_cons_of_mem e hf)) hk) ?_
    rintro _ l ⟨rfl, hl⟩
    refine Action.lands_pure ⟨rfl, ?_⟩
    rw [elementsOf_cons, add_assoc, add_left_comm]
    exact hl

/-! ## Containers -/

theorem lands_container {ty : BuiltinType} {length : Nat} {p : Payload}
    (hstart : start.Sound held) (hh : start.Carries held mine h)
    (hslots : slotsOf mine = p.children) (hfit : h.Fits p) :
    (container ty length p h).Lands (fun w k => start.Carries held {w} k)
      (start.Carries held 0) := by
  refine Action.lands_bind (Action.lands_allocate hstart hh hslots hfit) ?_
  intro copied k hk
  exact Action.lands_look_bind rfl (Action.lands_report_bind (Action.lands_pure hk))

/-- The copy of a container is made one level further down, or refused. -/
theorem lands_contents {inside : Option (Value → Action Value)}
    {x : (Value → Action Value) → Action Value} (hs : h.Sound held)
    (hx : ∀ copy, inside = some copy → ∀ start : Heap, start = { h with depth := h.depth + 1 } →
      start.Sound held → (x copy start).Lands (fun w k => start.Carries held {w} k)
        (start.Carries held 0)) :
    (ofValue.contents inside x h).Lands (fun w k => h.Carries held {w} k)
      (h.Carries held 0) := by
  cases inside with
  | none =>
    exact Action.lands_consult (f := fun h _ => Answer.refuse h.budget.depthLimit _)
      (.refuse _ _) (fun w hw => absurd hw Answer.result_refuse_ne_ok) (Heap.Carries.refl hs)
  | some copy =>
    refine Action.lands_oneLevelDown ?_
    exact Action.lands_mono (hx copy rfl _ rfl (hs.beside h.budget (h.depth + 1)))
      (fun w k hk => hk.leave) fun k hk => hk.leave

theorem lands_ofValue {inside : Option (Value → Action Value)}
    (hinside : ∀ copy, inside = some copy → Lands copy) : Lands (ofValue inside) := by
  intro h held v hs hv
  have hh := Heap.Carries.refl hs
  cases v with
  | ref s =>
    obtain ⟨p, hread, hp⟩ := Heap.exists_read hv
    have hnames {x : Value} (hx : x ∈ p.parts) := hs.closed.names hp hx
    have hshare : (Action.retain (.ref s) h).Lands (fun w k => h.Carries held {w} k)
        (h.Carries held 0) := by
      refine Action.lands_mono (Action.lands_retain hh hv) ?_ fun _ hk => hk
      rintro _ k ⟨rfl, -, hk⟩
      exact hk
    refine Action.lands_look_bind hread ?_
    cases p with
    | list vs =>
      refine lands_contents hs fun copy hc start hstart hs => ?_
      have hvs : ∀ v ∈ vs, start.Names v := fun v hv => hstart ▸ hnames hv
      refine Action.lands_bind (lands_items (hinside copy hc) hs hvs (Heap.Carries.refl hs)) ?_
      intro copied l hl
      exact lands_container hs hl rfl (.plain rfl rfl)
    | tuple vs =>
      refine lands_contents hs fun copy hc start hstart hs => ?_
      have hvs : ∀ v ∈ vs, start.Names v := fun v hv => hstart ▸ hnames hv
      refine Action.lands_bind (lands_items (hinside copy hc) hs hvs (Heap.Carries.refl hs)) ?_
      intro copied l hl
      exact lands_container hs hl rfl (.plain rfl rfl)
    | dict es =>
      refine lands_contents hs fun copy hc start hstart hs => ?_
      have hp : start.find? s = some (.dict es) := hstart ▸ hp
      have hh := Heap.Carries.refl hs
      have hin := Compare.entriesIn_of_closed hs.closed hp
      refine Action.lands_bind (lands_entries (hinside copy hc) hs hin hh) ?_
      rintro copied l ⟨hl, hkeys⟩
      have hfit : start.KeysFit (copied.map Entry.key) := hkeys ▸ (hs.fits s _ hp).keys
      refine lands_container hs hl rfl (Heap.fits_dict ?_)
      exact hh.keysFit hfit hl hl.kept.agree fun key hmem => mem_partsOf_of_key hmem
    | set es =>
      refine lands_contents hs fun copy hc start hstart hs => ?_
      have hp : start.find? s = some (.set es) := hstart ▸ hp
      have hh := Heap.Carries.refl hs
      have hin := Compare.elementsIn_of_closed hs.closed hp
      refine Action.lands_bind (lands_elements hin hh) ?_
      rintro _ l ⟨rfl, hl⟩
      rw [add_zero] at hl
      refine lands_container hs hl rfl (Heap.fits_set ?_)
      exact hh.keysFit (hs.fits s _ hp).keys hl hl.kept.agree fun key hmem => mem_elementsOf hmem
    | userInstance cls =>
      have hgood : h.GoodType (.userClass cls) := by
        rintro t ht
        cases ht
        exact (hs.fits s _ hp).classes cls List.mem_cons_self
      obtain ⟨name, hname⟩ := Heap.exists_nameOfType hgood
      exact Action.lands_look_bind hname (Action.lands_raise hh)
    | _ => exact hshare
  | _ => exact Action.lands_pure (hh.of_slots rfl)

/-- **A copy is made on top of what the heap holds**, with any number of levels left.  When it
cannot be made, nothing more is in use than before. -/
theorem lands_within (levels : Nat) : Lands (within levels) := by
  induction levels with
  | zero => exact lands_ofValue fun _ hc => by cases hc
  | succ levels ih =>
    refine lands_ofValue fun copy hc => ?_
    cases hc
    exact ih

end Copy

theorem lands_deepCopy {h : Heap} {held : Multiset Slot} {v : Value} (hs : h.Sound held)
    (hv : h.Names v) :
    (deepCopy v h).Lands (fun w k => h.Carries held {w} k) (h.Carries held 0) :=
  Copy.lands_within h.levelsLeft h held v hs hv

end ValueHeap
