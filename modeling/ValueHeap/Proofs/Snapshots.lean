import ValueHeap.Proofs.Counts
import ValueHeap.Proofs.Object.Unfolding

/-!
# Snapshots of what contains itself

Pushing an item may close a circle, so a list in what can come about may contain itself, at any
distance.  Its snapshot comes to an end nevertheless, and shows all of the list up to where it would
go round: a stand-in is found where the way down leads back to a slot that it has passed, and
nowhere else.  What is only shared is written out at each place where it is met.

## What is here

* `Heap.AcyclicFrom` — values that do not contain themselves, nor anything that contains itself.
* `Heap.Unfolds.snapshot_of_avoids` — a value that does not lead back looks the same everywhere.
* `snapshot_unfolds` — the snapshot of a value in use, in whatever can come about.
-/

set_option autoImplicit false

namespace ValueHeap

namespace Heap

/-- No slot that occurs in the value occurs in what it holds. -/
def AcyclicFrom (h : Heap) (v : Value) : Prop :=
  ∀ s p x, h.Occurs (.ref s) v → h.find? s = some p → x ∈ p.parts → ¬h.Occurs (.ref s) x

variable {h : Heap} {path : List Slot} {v w : Value} {o u : Object} {way : List Nat}

/-- What occurs in a value in use is in use. -/
theorem Closed.names_of_occurs (hc : h.Closed) (hv : h.Names v) (hw : h.Occurs w v) :
    h.Names w := by
  induction hw with
  | self => exact hv
  | part hp hx _ ih => exact ih (hc.names hp hx)

/-- No way through the value leads back. -/
theorem AcyclicFrom.not_mem (hv : h.AcyclicFrom v) {s : Slot}
    (hd : h.descend way [] v = some (path, .ref s)) : s ∉ path := by
  intro hs
  rcases (occurs_of_descend hd).2 s hs with hs | ⟨hocc, p, x, hp, hx, hback⟩
  · cases hs
  · exact hv s p x hocc hp hx hback

/-- **What does not lead back to the way is written out there as it is everywhere.** -/
theorem Unfolds.snapshot_of_avoids (hc : h.Coherent) (hv : h.Names v) (ho : h.Unfolds [] v o)
    (hd : h.descend way [] v = some (path, w)) (hpath : path.Nodup)
    (havoids : ∀ s ∈ path, ¬h.Occurs (.ref s) w) :
    ∃ u, h.snapshot w = .ok u ∧ o.at? way = some u := by
  obtain ⟨u, hu, hw⟩ := ho.exists_at? hd hpath
  obtain ⟨u', hu'⟩ := exists_snapshot hc (hc.closed.names_of_occurs hv (occurs_of_descend hd).1)
  obtain rfl := (hw.of_avoids havoids).eq_of_snapshotFrom (snapshot_eq_snapshotFrom w ▸ hu')
  exact ⟨u, hu', hu⟩

end Heap

/-- **A snapshot is the unfolding of the value, cut off where it leads back.**  In whatever can come
about, a value in use has a snapshot, which is its unfolding, and there is only one.  The stand-ins
for references stand exactly where a way leads back to a slot that it has passed.  So a part that
does not lead back to what is around it is written out as it is on its own, wherever it is met and
however often.  In the snapshot of a value that does not contain itself, nor anything that does,
there is no stand-in for a reference at all. -/
theorem snapshot_unfolds {budget : Budget} {c : Custody} (hc : Reachable budget c) {v : Value}
    (hv : c.heap.Names v) :
    ∃ o, c.heap.snapshot v = .ok o ∧
      (∀ o', c.heap.Unfolds [] v o' ↔ o' = o) ∧
      (∀ way path w u, c.heap.descend way [] v = some (path, w) → o.at? way = some u →
        (u.IsPlaceholder ↔ ∃ s ∈ path, w = .ref s)) ∧
      (∀ way path w, c.heap.descend way [] v = some (path, w) → path.Nodup →
        (∀ s ∈ path, ¬c.heap.Occurs (.ref s) w) →
          ∃ u, c.heap.snapshot w = .ok u ∧ o.at? way = some u) ∧
      (c.heap.AcyclicFrom v → ∀ way u, o.at? way = some u → ¬u.IsPlaceholder) := by
  have hcoherent := hc.sound.coherent
  obtain ⟨o, ho⟩ := Heap.exists_snapshot hcoherent hv
  have hwritten := Heap.snapshot_eq_snapshotFrom v ▸ ho
  have hunfolds := Heap.Unfolds.of_snapshotFrom List.nodup_nil hwritten
  have hback {way : List Nat} {path : List Slot} {w : Value} {u : Object}
      (hd : c.heap.descend way [] v = some (path, w)) (hu : o.at? way = some u) :
      u.IsPlaceholder ↔ ∃ s ∈ path, w = .ref s := by
    obtain ⟨path', w', hd', hshows⟩ := hunfolds.shows way u hu
    cases hd.symm.trans hd'
    exact hshows.isPlaceholder_iff
  refine ⟨o, ho, fun o' => ⟨Heap.Unfolds.eq_of_snapshotFrom hwritten, ?_⟩,
    fun way path w u => hback, fun way path w => hunfolds.snapshot_of_avoids hcoherent hv, ?_⟩
  · rintro rfl
    exact hunfolds
  · intro hacyclic way u hu hplaceholder
    obtain ⟨path, w, hd, -⟩ := hunfolds.shows way u hu
    obtain ⟨s, hs, rfl⟩ := (hback hd hu).1 hplaceholder
    exact hacyclic.not_mem hd hs

/-- A list that holds another one twice and then itself: the other one is written out both times,
and its own snapshot has no stand-in. -/
theorem snapshot_unfolds_circle :
    ∃ c o inner, Reachable .untracked c ∧ c.heap.find? 0 = some (.list [.int 1]) ∧
      c.heap.find? 1 = some (.list [.ref 0, .ref 0, .ref 1]) ∧
      c.heap.snapshot (.ref 1) = .ok o ∧ c.heap.snapshot (.ref 0) = .ok inner ∧
      (∀ o', c.heap.Unfolds [] (.ref 1) o' ↔ o' = o) ∧
      o.at? [0] = some inner ∧ o.at? [1] = some inner ∧ o.at? [2] = some (.standIn "[...]") ∧
      ∀ way u, inner.at? way = some u → ¬u.IsPlaceholder := by
  have hinner : Reachable .untracked
      ⟨⟨#[some ⟨1, .list [.int 1]⟩], [], .untracked, 0⟩, {.ref 0}⟩ :=
    Reachable.start.ask (.build (.list [.int 1])) [.ref 0] (by decide) (by decide)
      (fun _ hp => by cases hp) trivial rfl rfl (by decide)
  have hshared : Reachable .untracked
      ⟨⟨#[some ⟨2, .list [.int 1]⟩], [], .untracked, 0⟩, {.ref 0, .ref 0}⟩ :=
    hinner.ask (.clone (.ref 0)) [.ref 0] (by decide) (by decide)
      (fun _ hp => by cases hp) trivial rfl rfl (by decide)
  have houter : Reachable .untracked
      ⟨⟨#[some ⟨2, .list [.int 1]⟩, some ⟨1, .list [.ref 0, .ref 0]⟩], [], .untracked, 0⟩,
        {.ref 1}⟩ :=
    hshared.ask (.allocate (.list [.ref 0, .ref 0])) [.ref 1] (by decide) (by decide)
      (fun _ hp => by cases hp; rfl) trivial rfl rfl (by decide)
  have hclone : Reachable .untracked
      ⟨⟨#[some ⟨2, .list [.int 1]⟩, some ⟨2, .list [.ref 0, .ref 0]⟩], [], .untracked, 0⟩,
        {.ref 1, .ref 1}⟩ :=
    houter.ask (.clone (.ref 1)) [.ref 1] (by decide) (by decide)
      (fun _ hp => by cases hp) trivial rfl rfl (by decide)
  let h : Heap := ⟨#[some ⟨2, .list [.int 1]⟩, some ⟨2, .list [.ref 0, .ref 0, .ref 1]⟩], [],
    .untracked, 0⟩
  have hpush : Reachable .untracked ⟨h, {.ref 1}⟩ :=
    hclone.ask (.push 1 (.ref 1)) [] (by decide) (by decide)
      (fun _ hp => by cases hp) ⟨_, rfl⟩ rfl rfl (by decide)
  have hnames : h.Names (.ref 0) := by
    rintro _ ⟨⟩
    rfl
  -- nothing but the list itself and a number occurs in the shared list
  have hslot {s : Slot} (hs : h.Occurs (.ref s) (.ref 0)) : s = 0 := by
    cases hs with
    | self => rfl
    | part hp hx hs =>
      cases hp
      cases List.mem_singleton.1 hx
      cases hs
  have hacyclic : h.AcyclicFrom (.ref 0) := by
    intro s p x hs hp hx hback
    cases hslot hs
    cases hp
    cases List.mem_singleton.1 hx
    cases hback
  have havoids : ∀ s ∈ [1], ¬h.Occurs (.ref s) (.ref 0) :=
    List.forall_mem_singleton.2 fun hs => absurd (hslot hs) (by decide)
  obtain ⟨o, ho, hunique, -, hfull, -⟩ :=
    snapshot_unfolds hpush (hpush.names (v := .ref 1) (by decide))
  obtain ⟨inner, hi, -, -, -, hnone⟩ := snapshot_unfolds hpush hnames
  obtain ⟨u, hu, hfirst⟩ := hfull [0] [1] (.ref 0) rfl (by decide) havoids
  obtain ⟨u', hu', hsecond⟩ := hfull [1] [1] (.ref 0) rfl (by decide) havoids
  cases hi.symm.trans hu
  cases hi.symm.trans hu'
  have hwhole : h.snapshot (.ref 1) =
      .ok (.list [.list [.int 1], .list [.int 1], .standIn "[...]"]) := rfl
  cases hwhole.symm.trans ho
  exact ⟨_, _, inner, hpush, rfl, rfl, ho, hi, hunique, hfirst, hsecond, rfl, hnone hacyclic⟩

end ValueHeap
