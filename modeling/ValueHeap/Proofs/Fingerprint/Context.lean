import ValueHeap.Proofs.Fingerprint.MoreLevels
import ValueHeap.Proofs.Fingerprints

/-!
# A changed part shows in the fingerprint

A fingerprint is taken to find out later whether a value has been changed.  The words of parts are
combined with exclusive or, which forgets a lot: parts that occur twice cancel out.  But it forgets
nothing of one part while all the others stay the same, since two words that differ still do when
both are combined with a third.  So a change at one place is passed on from every container to the
one around it, for a key as well as for a value, and it is seen at the top.

At a place further down there are fewer levels left, which makes no difference to the word that is
found there.

## What is here

* `Heap.InContext` — two values that are the same around one place.
* `Fingerprint.value?_fold_middle` — one part among others.
* `Fingerprint.value?_context` — a place below any number of containers.
* `deepHash_shows_change` — **the fingerprint changes exactly if that at the place does**.
-/

set_option autoImplicit false

namespace ValueHeap

/-- A value of one heap and a value of another one that are the same but at one place, where the one
has `x` and the other `y`: they are these, or they are containers of the same kind with such values
among their parts, and the other parts are the same but for the order of parts further down. -/
inductive Heap.InContext (h k : Heap) (x y : Value) : Value → Value → Prop
  | hole : InContext h k x y x y
  | inside {s t : Slot} {p q : Payload} {v w : Value} {before after before' after' : List Value}
      (hp : h.find? s = some p) (hq : k.find? t = some q) (hrebuilt : p.isRebuilt = true)
      (hkind : q.kindName = p.kindName) (hparts : p.parts = before ++ v :: after)
      (hparts' : q.parts = before' ++ w :: after')
      (hbefore : List.Forall₂ (h.Rearranged k) before before')
      (hafter : List.Forall₂ (h.Rearranged k) after after') (hvw : InContext h k x y v w) :
      InContext h k x y (.ref s) (.ref t)

theorem toOption_eq_some_iff {ε α : Type} {x : Except ε α} {a : α} :
    x.toOption = some a ↔ x = .ok a := by
  cases x <;> simp [Except.toOption]

namespace Fingerprint

variable {h k : Heap} {s : Slot} {p q : Payload} {x y v w : Value} {m n : Nat} {a b : Int64}

/-! ## One level -/

/-- Where the fingerprint of a container starts from. -/
def start : Payload → Int64
  | .list _ => header .list
  | .tuple _ => header .tuple
  | .set _ => header .set
  | .dict _ => header .dict
  | _ => 0

theorem start_eq (hkind : q.kindName = p.kindName) : start q = start p := by
  cases p <;> cases q <;> first | rfl | simp [Payload.kindName] at hkind

/-- The fingerprint of a container is that of its parts folded into where it starts from. -/
theorem value?_container (hp : h.find? s = some p) (hrebuilt : p.isRebuilt = true) (n : Nat) :
    (within h (n + 1) (.ref s)).value? = (fold (within h n) (start p) p.parts).value? := by
  rw [within, ofValue, Answer.value?_look_bind (Heap.read_eq_ok_iff.2 hp)]
  cases p with
  | dict entries => simp only [foldEntries_eq_fold]; rfl
  | list | tuple | set => rfl
  | _ => cases hrebuilt

theorem value?_refused (hp : h.find? s = some p) (hrebuilt : p.isRebuilt = true) :
    (within h 0 (.ref s)).value? = none := by
  rw [within, ofValue, Answer.value?_look_bind (Heap.read_eq_ok_iff.2 hp)]
  cases p with
  | dict | list | tuple | set => rfl
  | _ => cases hrebuilt

/-- One part is combined with what the others come to without it. -/
theorem value?_fold_middle (part : Value → Answer Int64) (acc : Int64) (before : List Value)
    (v : Value) (after : List Value) :
    (fold part acc (before ++ v :: after)).value? =
      combine (fold part acc (before ++ after)).value? (part v).value? := by
  have hlast : (before ++ after ++ [v]).Perm (before ++ v :: after) :=
    (List.perm_append_singleton v (before ++ after)).trans List.perm_middle.symm
  rw [value?_fold_eq hlast (List.forall₂_same.2 fun _ _ => rfl) acc, value?_fold, value?_fold,
    List.map_append, List.foldl_append]
  rfl

/-- Words that are combined with the same word differ if they do. -/
theorem combine_eq_some {c : Option Int64} {u u' : Option Int64} (ha : combine c u = some a)
    (hb : combine c u' = some b) :
    ∃ a' b', u = some a' ∧ u' = some b' ∧ (a = b ↔ a' = b') := by
  obtain ⟨d, a', hd, hu, rfl⟩ := Option.map₂_eq_some_iff.1 ha
  obtain ⟨d', b', hd', hu', rfl⟩ := Option.map₂_eq_some_iff.1 hb
  obtain rfl := Option.mem_unique hd hd'
  exact ⟨a', b', hu, hu', Int64.xor_right_inj d⟩

/-! ## All levels -/

/-- A word that is found is found with more levels left as well. -/
theorem value?_mono (hmn : m ≤ n) (ha : (within h m v).value? = some a) :
    (within h n v).value? = some a := by
  rw [Answer.value?, toOption_eq_some_iff] at ha ⊢
  exact (within_deeper rfl rfl hmn v).result_eq_ok (fun _ => id) ha

/-- **Around a place that is no further down than the levels go, the words differ exactly if they do
at the place.** -/
theorem value?_context (hdigits : h.budget.digitLimit = k.budget.digitLimit)
    (hvw : h.InContext k x y v w) (ha : (within h n v).value? = some a)
    (hb : (within k n w).value? = some b) :
    ∃ a' b', (within h n x).value? = some a' ∧ (within k n y).value? = some b' ∧
      (a = b ↔ a' = b') := by
  induction hvw generalizing n a b with
  | hole => exact ⟨a, b, ha, hb, Iff.rfl⟩
  | inside hp hq hrebuilt hkind hparts hparts' hbefore hafter hvw ih =>
    cases n with
    | zero =>
      rw [value?_refused hp hrebuilt] at ha
      cases ha
    | succ n =>
      have hsame : List.Forall₂ (fun z z' => (within h n z).value? = (within k n z').value?)
          (_ ++ _) (_ ++ _) :=
        (List.rel_append hbefore hafter).imp fun _ _ hzz =>
          within_eq_of_rearranged hdigits (hzz n)
      have hothers := value?_fold_eq (List.Perm.refl _) hsame
      rw [value?_container hp hrebuilt, hparts, value?_fold_middle] at ha
      rw [value?_container hq ((Payload.isRebuilt_eq hkind).trans hrebuilt), hparts',
        start_eq hkind, value?_fold_middle, ← hothers] at hb
      obtain ⟨a₁, b₁, ha₁, hb₁, hab⟩ := combine_eq_some ha hb
      obtain ⟨a', b', ha', hb', hab'⟩ := ih ha₁ hb₁
      exact ⟨a', b', value?_mono n.le_succ ha', value?_mono n.le_succ hb', hab.trans hab'⟩

end Fingerprint

/-- **A change at one place shows in the fingerprint exactly if it shows in the fingerprint at that
place.**  Let two values, in heaps with the same limits and as many levels entered, be the same but
at one place, however deep in lists, tuples and sets and in the keys and the values of dicts, and
let both have a fingerprint.  Then what stands at the place has one in each of them, and the
fingerprints of the two values are equal if and only if those are. -/
theorem deepHash_shows_change {h k : Heap} {x y v w : Value} {a b : Int64}
    (hdepth : h.depth = k.depth) (hlevels : h.budget.depthLimit = k.budget.depthLimit)
    (hdigits : h.budget.digitLimit = k.budget.digitLimit) (hvw : h.InContext k x y v w)
    (ha : (deepHash v h).result = .ok a) (hb : (deepHash w k).result = .ok b) :
    ∃ a' b', (deepHash x h).result = .ok a' ∧ (deepHash y k).result = .ok b' ∧
      (a = b ↔ a' = b') := by
  have hleft : k.levelsLeft = h.levelsLeft := by
    rw [Heap.levelsLeft, Heap.levelsLeft, hdepth, hlevels]
  rw [← toOption_eq_some_iff, toOption_deepHash] at ha hb
  rw [hleft] at hb
  obtain ⟨a', b', ha', hb', hab⟩ := Fingerprint.value?_context hdigits hvw ha hb
  refine ⟨a', b', ?_, ?_, hab⟩
  · rw [← toOption_eq_some_iff, toOption_deepHash, ha']
  · rw [← toOption_eq_some_iff, toOption_deepHash, hleft, hb']

/-- Two dicts that are the same but for a number in the list under their only key: the fingerprints
differ, since those of the two numbers do. -/
theorem deepHash_shows_change_dict :
    ∃ c : Custody, Reachable .untracked c ∧
      c.heap.find? 1 = some (.dict [⟨⟨.int 1, 1⟩, .ref 0⟩]) ∧
      c.heap.find? 3 = some (.dict [⟨⟨.int 1, 1⟩, .ref 2⟩]) ∧
      c.heap.InContext c.heap (.int 3) (.int 4) (.ref 1) (.ref 3) ∧
      ∃ a b, (deepHash (.ref 1) c.heap).result = .ok a ∧
        (deepHash (.ref 3) c.heap).result = .ok b ∧ a ≠ b := by
  let o : Object :=
    .tuple [.dict [(.int 1, .list [.none, .int 3])], .dict [(.int 1, .list [.none, .int 4])]]
  let c : Custody := Custody.after ⟨Heap.empty .untracked, 0⟩ (.build o) [.ref 4]
  have hc : Reachable .untracked c :=
    .result [.ref 4] .start (Request.permitted_build o _) (by decide +kernel)
  have h₀ : c.heap.find? 0 = some (.list [.none, .int 3]) := by decide +kernel
  have h₁ : c.heap.find? 1 = some (.dict [⟨⟨.int 1, 1⟩, .ref 0⟩]) := by decide +kernel
  have h₂ : c.heap.find? 2 = some (.list [.none, .int 4]) := by decide +kernel
  have h₃ : c.heap.find? 3 = some (.dict [⟨⟨.int 1, 1⟩, .ref 2⟩]) := by decide +kernel
  have hlists : c.heap.InContext c.heap (.int 3) (.int 4) (.ref 0) (.ref 2) :=
    .inside h₀ h₂ rfl rfl (show _ = [.none] ++ .int 3 :: [] from rfl)
      (show _ = [.none] ++ .int 4 :: [] from rfl) (.cons (.immediate rfl) .nil) .nil .hole
  have hdicts : c.heap.InContext c.heap (.int 3) (.int 4) (.ref 1) (.ref 3) :=
    .inside h₁ h₃ rfl rfl (show _ = [.int 1] ++ .ref 0 :: [] from rfl)
      (show _ = [.int 1] ++ .ref 2 :: [] from rfl) (.cons (.immediate rfl) .nil) .nil hlists
  have hsome (v : Value) (hv : (deepHash v c.heap).result.isOk = true) :
      ∃ a, (deepHash v c.heap).result = .ok a := by
    cases hr : (deepHash v c.heap).result with
    | ok a => exact ⟨a, rfl⟩
    | error e =>
      rw [hr] at hv
      cases hv
  obtain ⟨a, ha⟩ := hsome (.ref 1) (by decide +kernel)
  obtain ⟨b, hb⟩ := hsome (.ref 3) (by decide +kernel)
  obtain ⟨a', b', ha', hb', hab⟩ := deepHash_shows_change rfl rfl rfl hdicts ha hb
  refine ⟨c, hc, h₁, h₃, hdicts, a, b, ha, hb, fun heq => ?_⟩
  have hne : (deepHash (.int 3) c.heap).result ≠ (deepHash (.int 4) c.heap).result := by
    decide +kernel
  exact hne (ha'.trans ((hab.1 heq).symm ▸ hb'.symm))

end ValueHeap
