import ValueHeap.Proofs.Heap.Tour
import ValueHeap.Proofs.Object.Rebuilding

/-!
# Operations that end as foretold

What an operation on a heap reports and how it ends can often be told beforehand, by an answer that
only looks at the heap.  An operation that changes the heap is then as good as one that does not: it
reports the same events, and it has a result where the answer has one, and else the same error.

Only the accounts of the heap can stop it before.  Since every container that is built is reported,
they can be gone through along the events that are told: each container is paid for when it is
reported, and the operation ends with the first that is refused.  Where nothing is limited and there
is room for what is built, nothing is refused.  Cleaning up behind an error must meet no fault, and
this is known from what the heap carries then.

## What is here

* `Budget.spend` and `Answer.paid` — events as far as they are paid for, and an answer as far as its
  events are.
* `Answer.paid_forM_cases` — visits one after the other, up to the first that is not paid for.
* `Outcome.Follows` — an outcome that is as an answer tells.
* `Action.Foretold` — an operation that is as an answer tells, as far as that is paid for.
* `Action.foretold_bind`, `Action.foretold_onError` and their like — one rule for each way of
  putting operations together.
* `Action.foretold_retain` and `Action.foretold_place` — a reference taken, and a container placed
  and reported.
* `Action.Foretold.follows` — with room for all of it, an operation is as the answer tells.
-/

set_option autoImplicit false

namespace ValueHeap

/-! ## Paying for what is reported -/

/-- The bytes of the container that is reported, if it is one. -/
def Event.bytes : Event → Nat
  | copied .dict length _ => 64 + 48 * length
  | copied .set length _ => 64 + 32 * length
  | copied _ length _ => 64 + 16 * length
  | _ => 0

namespace Budget

/-- Charges for a container that is reported.  Other events are for free. -/
def pay (b : Budget) : Event → Except Failure Budget
  | .copied ty length depth => b.charge (Event.copied ty length depth).bytes
  | _ => .ok b

/-- Charges for events one after the other.  The first one that is refused is not among those that
are paid for, and nothing behind it is. -/
def spend (b : Budget) : List Event → List Event × Except Failure Budget
  | [] => ([], .ok b)
  | e :: es =>
    match b.pay e with
    | .ok c => (e :: (c.spend es).1, (c.spend es).2)
    | .error failure => ([], .error failure)

variable {b c : Budget} {e : Event} {es : List Event} {failure : Failure}

theorem spend_cons_of_ok (he : b.pay e = .ok c) (es : List Event) :
    b.spend (e :: es) = (e :: (c.spend es).1, (c.spend es).2) := by
  rw [spend, he]

theorem spend_cons_of_error (he : b.pay e = .error failure) (es : List Event) :
    b.spend (e :: es) = ([], .error failure) := by
  rw [spend, he]

theorem spend_append (b : Budget) (es fs : List Event) :
    b.spend (es ++ fs) =
      match b.spend es with
      | (paid, .ok c) => (paid ++ (c.spend fs).1, (c.spend fs).2)
      | (paid, .error failure) => (paid, .error failure) := by
  induction es generalizing b with
  | nil => rfl
  | cons e es ih =>
    cases he : b.pay e with
    | error failure => rw [List.cons_append, spend_cons_of_error he, spend_cons_of_error he]
    | ok c =>
      rw [List.cons_append, spend_cons_of_ok he, spend_cons_of_ok he, ih]
      rcases c.spend es with ⟨paid, _ | _⟩ <;> rfl

/-- If all is paid for, none of it is missing. -/
theorem events_of_spend (h : (b.spend es).2 = .ok c) : (b.spend es).1 = es := by
  induction es generalizing b with
  | nil => rfl
  | cons e es ih =>
    cases he : b.pay e with
    | error failure =>
      rw [spend_cons_of_error he] at h
      cases h
    | ok d =>
      rw [spend_cons_of_ok he] at h ⊢
      rw [ih h]

theorem Affords.spend {rest : Nat} (hb : b.Affords ((es.map Event.bytes).sum + rest)) :
    ∃ c, b.spend es = (es, .ok c) ∧ c.Affords rest := by
  induction es generalizing b with
  | nil => exact ⟨b, rfl, hb.mono (Nat.le_add_left rest _)⟩
  | cons e es ih =>
    rw [List.map_cons, List.sum_cons, Nat.add_assoc] at hb
    obtain ⟨c, hc, hrest⟩ : ∃ c, b.pay e = .ok c ∧
        c.Affords ((es.map Event.bytes).sum + rest) := by
      cases e with
      | copied => exact hb.charge
      | _ => exact ⟨b, rfl, hb.mono (Nat.le_add_left _ _)⟩
    obtain ⟨d, hd, hdrest⟩ := ih hrest
    exact ⟨d, by rw [spend_cons_of_ok hc, hd], hdrest⟩

end Budget

namespace Answer

/-- The bytes of all containers that are reported. -/
def bytes {α : Type} (x : Answer α) : Nat := (x.events.map Event.bytes).sum

/-- What is told, as far as it is paid for: the events up to the first that is refused, and the
accounts behind all of them or else the failure. -/
def paid (b : Budget) (told : Answer Unit) : List Event × Except Failure Budget :=
  match b.spend told.events with
  | (es, .ok c) => (es, (told.result.mapError Halt.failure).map fun _ => c)
  | (es, .error failure) => (es, .error failure)

variable {b c : Budget} {told : Answer Unit} {failure : Failure}

theorem paid_of_ok (hspend : b.spend told.events = (told.events, .ok c))
    (htold : told.result = .ok ()) : told.paid b = (told.events, .ok c) := by
  rw [paid, hspend, htold]
  rfl

theorem paid_of_error {halt : Halt} (hspend : b.spend told.events = (told.events, .ok c))
    (htold : told.result = .error halt) :
    told.paid b = (told.events, .error halt.failure) := by
  rw [paid, hspend, htold]
  rfl

/-- Where there are accounts in the end, all was paid for, and the answer has a result. -/
theorem eq_ok_of_paid (h : (told.paid b).2 = .ok c) :
    told.result = .ok () ∧ b.spend told.events = (told.events, .ok c) := by
  have hevents {d : Budget} : (b.spend told.events).2 = .ok d →
      (b.spend told.events).1 = told.events := Budget.events_of_spend
  rw [paid] at h
  generalize b.spend told.events = spent at h hevents
  rcases spent with ⟨es, _ | d⟩
  · cases h
  · cases hresult : told.result with
    | error halt =>
      rw [hresult] at h
      cases h
    | ok _ =>
      rw [hresult] at h
      cases h
      exact ⟨rfl, Prod.ext (hevents rfl) rfl⟩

/-- What follows is paid for with what is left, if anything follows. -/
theorem paid_bind (b : Budget) (x : Answer Unit) (f : Unit → Answer Unit) :
    (x >>= f).paid b =
      match x.paid b with
      | (es, .ok c) => (es ++ ((f ()).paid c).1, ((f ()).paid c).2)
      | (es, .error failure) => (es, .error failure) := by
  cases hx : x.result with
  | error halt =>
    rw [bind_of_error hx, paid, paid, hx]
    dsimp only
    rcases b.spend x.events with ⟨es, _ | c⟩ <;> rfl
  | ok _ =>
    rw [bind_of_ok hx, paid, paid, hx]
    dsimp only
    rw [Budget.spend_append]
    rcases b.spend x.events with ⟨es, _ | c⟩
    · rfl
    · show _ = (es ++ ((f ()).paid c).1, ((f ()).paid c).2)
      rw [paid]
      dsimp only
      rcases c.spend (f ()).events with ⟨fs, _ | d⟩ <;> rfl

/-- Visits one after the other are all paid for, or there is a first one that is not or ends with an
error. -/
theorem paid_forM_cases {α : Type} (f : α → Answer Unit) (xs : List α) (b : Budget) :
    (∃ c, b.spend (xs.flatMap fun x => (f x).events) = (xs.flatMap fun x => (f x).events, .ok c) ∧
        (∀ x ∈ xs, (f x).result = .ok ()) ∧
        (forM xs f).paid b = (xs.flatMap fun x => (f x).events, .ok c)) ∨
      ∃ ys x zs c failure, xs = ys ++ x :: zs ∧ (∀ y ∈ ys, (f y).result = .ok ()) ∧
        b.spend (ys.flatMap fun y => (f y).events) =
          (ys.flatMap fun y => (f y).events, .ok c) ∧
        ((f x).paid c).2 = .error failure ∧
        (forM xs f).paid b =
          ((ys.flatMap fun y => (f y).events) ++ ((f x).paid c).1, .error failure) := by
  induction xs generalizing b with
  | nil => exact Or.inl ⟨b, rfl, nofun, rfl⟩
  | cons x xs ih =>
    rw [List.forM_cons, paid_bind]
    rcases hx : (f x).paid b with ⟨es, failure | c⟩
    · exact Or.inr ⟨[], x, xs, b, failure, rfl, nofun, rfl, by rw [hx], by rw [hx]; rfl⟩
    · obtain ⟨hresult, hspend⟩ := eq_ok_of_paid (c := c) (by rw [hx])
      obtain rfl : (f x).events = es := by
        rw [paid_of_ok hspend hresult] at hx
        exact (Prod.mk.inj hx).1
      have hpast {ys : List α} {d : Budget}
          (hys : c.spend (ys.flatMap fun y => (f y).events) =
            (ys.flatMap fun y => (f y).events, .ok d)) :
          b.spend ((x :: ys).flatMap fun y => (f y).events) =
            ((x :: ys).flatMap fun y => (f y).events, .ok d) := by
        rw [List.flatMap_cons, Budget.spend_append, hspend]
        dsimp only
        rw [hys]
      rcases ih c with ⟨d, hd, hxs, hpaid⟩ | ⟨ys, y, zs, d, failure, rfl, hys, hd, hy, hpaid⟩
      · refine Or.inl ⟨d, hpast hd, List.forall_mem_cons.2 ⟨hresult, hxs⟩, ?_⟩
        dsimp only
        rw [hpaid, List.flatMap_cons]
      · refine Or.inr ⟨x :: ys, y, zs, d, failure, rfl, List.forall_mem_cons.2 ⟨hresult, hys⟩,
          hpast hd, hy, ?_⟩
        dsimp only
        rw [hpaid, List.flatMap_cons, List.append_assoc]

end Answer

/-! ## Outcomes -/

/-- The outcome is as an answer tells: with the same events, and with a result and a heap as `P`
says, or with the same error. -/
def Outcome.Follows {α : Type} (P : α → Heap → Prop) (told : Answer Unit) (o : Outcome α) : Prop :=
  o.events = told.events ∧
    match o.result with
    | .ok a => told.result = .ok () ∧ P a o.heap
    | .error (.error e) => told.result = .error (.error e)
    | .error (.fault _) => False

section Follows

variable {α : Type} {P : α → Heap → Prop} {told : Answer Unit} {o : Outcome α}

theorem Outcome.Follows.exists_ok_iff (ho : o.Follows P told) :
    (∃ a, o.result = .ok a) ↔ told.result = .ok () := by
  rcases o with ⟨(e | _) | a, k, es⟩
  · simp [show told.result = .error (.error e) from ho.2]
  · exact ho.2.elim
  · simp [show told.result = .ok () from ho.2.1]

theorem Outcome.Follows.error_iff {e : RunError} (ho : o.Follows P told) :
    o.result = .error (.error e) ↔ told.result = .error (.error e) := by
  rcases o with ⟨(e' | _) | a, k, es⟩
  · simp [show told.result = .error (.error e') from ho.2]
  · exact ho.2.elim
  · simp [show told.result = .ok () from ho.2.1]

theorem Outcome.Follows.ne_fault (ho : o.Follows P told) (f : Fault) :
    o.result ≠ .error (.fault f) := by
  intro hf
  rw [Outcome.Follows, hf] at ho
  exact ho.2

end Follows

/-! ## Operations -/

/-- How far an operation came: what it reported, and the accounts that it leaves or its failure. -/
def Outcome.extent {α : Type} (o : Outcome α) : List Event × Except Failure Budget :=
  (o.events, o.result.map fun _ => o.heap.budget)

/-- The operation is as an answer tells, as far as that is paid for. -/
def Action.Foretold {α : Type} (P : α → Heap → Prop) (told : Answer Unit) (x : Action α)
    (h : Heap) : Prop :=
  (x h).extent = told.paid h.budget ∧ ∀ a, (x h).result = .ok a → P a (x h).heap

namespace Action

variable {α β : Type} {P Q : α → Heap → Prop} {h : Heap} {x : Action α} {told told' : Answer Unit}

theorem Foretold.mono (hx : Foretold P told x h) (hPQ : ∀ a k, P a k → Q a k) :
    Foretold Q told x h :=
  ⟨hx.1, fun a ha => hPQ a _ (hx.2 a ha)⟩

/-- What is known of any result is known of the one that was told. -/
theorem Foretold.and_lands {B : Heap → Prop} (hx : Foretold P told x h) (hl : (x h).Lands Q B) :
    Foretold (fun a k => P a k ∧ Q a k) told x h := by
  refine ⟨hx.1, fun a ha => ⟨hx.2 a ha, ?_⟩⟩
  rw [Outcome.Lands, ha] at hl
  exact hl

/-- **With room for all of it, an operation is as the answer tells**, and behind a result the rest
of the room is still there. -/
theorem Foretold.follows {rest : Nat} (hx : Foretold P told x h)
    (hroom : h.budget.Affords (told.bytes + rest))
    (htold : ∀ f levels, told.result ≠ .error (.fault f levels)) :
    (x h).Follows (fun a k => P a k ∧ k.budget.Affords rest) told := by
  obtain ⟨hextent, hP⟩ := hx
  obtain ⟨c, hc, hrest⟩ := hroom.spend
  generalize x h = o at hextent hP ⊢
  cases hresult : told.result with
  | error halt =>
    rw [Answer.paid_of_error hc hresult] at hextent
    rcases o with ⟨failure | a, k, es⟩
    · obtain ⟨hevents, hfailure⟩ := Prod.mk.inj hextent
      cases halt with
      | error e =>
        cases hfailure
        exact ⟨hevents, hresult⟩
      | fault f levels => exact absurd hresult (htold f levels)
    · cases (Prod.mk.inj hextent).2
  | ok _ =>
    rw [Answer.paid_of_ok hc hresult] at hextent
    rcases o with ⟨failure | a, k, es⟩
    · cases (Prod.mk.inj hextent).2
    · obtain ⟨hevents, hbudget⟩ := Prod.mk.inj hextent
      cases hbudget
      exact ⟨hevents, hresult, hP a rfl, hrest⟩

/-! ## Operations put together -/

theorem foretold_pure {a : α} (ha : P a h) : Foretold P (pure ()) (pure a) h :=
  ⟨rfl, by rintro _ ⟨⟩; exact ha⟩

theorem foretold_raise {c : Cause} : Foretold P (Answer.raise c) (raise c) h :=
  ⟨rfl, nofun⟩

theorem foretold_bind {mid : β → Heap → Prop} {y : Action β} {f : β → Action α}
    (hy : Foretold mid told y h) (hf : ∀ b k, mid b k → Foretold P told' (f b) k) :
    Foretold P (told >>= fun _ => told') (y >>= f) h := by
  obtain ⟨hextent, hmid⟩ := hy
  rw [Foretold, Answer.paid_bind, ← hextent, Outcome.extent, Outcome.extent]
  cases hr : (y h).result with
  | error failure =>
    rw [bind_apply_error hr]
    exact ⟨rfl, nofun⟩
  | ok b =>
    obtain ⟨hnext, hP⟩ := hf b _ (hmid b hr)
    rw [bind_apply_ok hr]
    refine ⟨?_, hP⟩
    show (_, _) = (_ ++ (Answer.paid (y h).heap.budget told').1, _)
    rw [← hnext]
    rfl

/-- Behind an operation that tells nothing, what follows tells all. -/
theorem foretold_bind_pure {mid : β → Heap → Prop} {y : Action β} {f : β → Action α}
    (hy : Foretold mid (pure ()) y h) (hf : ∀ b k, mid b k → Foretold P told (f b) k) :
    Foretold P told (y >>= f) h := by
  rw [← pure_bind () fun _ => told]
  exact foretold_bind hy hf

theorem foretold_look_bind {f : Heap → Except Fault β} {g : β → Action α} {b : β}
    (hf : f h = .ok b) (hg : Foretold P told (g b) h) : Foretold P told (look f >>= g) h := by
  have hlook : Foretold (fun c k => c = b ∧ k = h) (pure ()) (look f) h := by
    rw [Foretold, look, hf]
    exact ⟨rfl, by rintro _ ⟨⟩; exact ⟨rfl, rfl⟩⟩
  refine foretold_bind_pure hlook ?_
  rintro _ _ ⟨rfl, rfl⟩
  exact hg

/-- Cleaning up behind an error tells nothing. -/
theorem foretold_onError {cleanup : Action Unit} {B : Heap → Prop} (hx : Foretold P told x h)
    (hlands : (x h).Lands Q B) (hcleanup : ∀ k, B k → ∃ l, cleanup k = ⟨.ok (), l, []⟩) :
    Foretold P told (onError x cleanup) h := by
  rw [Foretold, onError]
  rw [Foretold] at hx
  generalize x h = o at hx hlands ⊢
  rcases o with ⟨(e | _) | a, k, es⟩
  · obtain ⟨l, hl⟩ := hcleanup k hlands
    simp only [hl, List.append_nil]
    exact ⟨hx.1, fun _ ha => by cases ha⟩
  · exact hx
  · exact hx

theorem foretold_oneLevelDown
    (hx : Foretold (fun a k => P a k.leave) told x { h with depth := h.depth + 1 }) :
    Foretold P told (oneLevelDown x) h := by
  rw [Foretold, oneLevelDown]
  rw [Foretold] at hx
  generalize x { h with depth := h.depth + 1 } = o at hx ⊢
  rcases o with ⟨(_ | _) | a, k, es⟩
  · exact ⟨hx.1, fun _ ha => by cases ha⟩
  · exact ⟨hx.1, fun _ ha => by cases ha⟩
  · exact hx

/-! ## References and contents -/

theorem foretold_retain {v : Value} (hv : h.Names v) :
    Foretold (fun w _ => w = v) (pure ()) (retain v) h := by
  cases v with
  | ref s =>
    obtain ⟨c, hc, -⟩ := Heap.exists_cell?_of_find? (Option.get_mem (hv s rfl))
    have hchange : Foretold (fun _ _ => True) (pure ()) (change fun h => h.retain s) h := by
      rw [Foretold, change, Heap.retain, Heap.access_eq_ok_iff.2 hc]
      exact ⟨rfl, fun _ _ => trivial⟩
    exact foretold_bind_pure hchange fun _ k _ => foretold_pure rfl
  | _ => exact foretold_pure rfl

/-- Contents are placed if they can be charged for, and else their parts are given back. -/
theorem allocate_cases {p : Payload} (hrelease : (h.release p.children).1 = .ok ()) :
    (∃ v k, h.budget.charge p.size = .ok k.budget ∧ k.depth = h.depth ∧
        allocate p h = ⟨.ok v, k, []⟩) ∨
      ∃ failure k, h.budget.charge p.size = .error failure ∧
        allocate p h = ⟨.error failure, k, []⟩ := by
  rw [allocate, Heap.allocate]
  cases h.budget.charge p.size with
  | ok c =>
    refine Or.inl ⟨_, (Heap.place { h with budget := c } p).2, ?_, Heap.depth_place _ p, rfl⟩
    rw [Heap.budget_place]
  | error failure =>
    refine Or.inr ⟨failure, ?_⟩
    cases failure with
    | fault f => exact ⟨_, rfl, rfl⟩
    | error e =>
      generalize h.release p.children = released at hrelease ⊢
      rcases released with ⟨_ | _, k⟩
      · cases hrelease
      · exact ⟨k, rfl, rfl⟩

/-- A container is placed and reported, which tells what it is charged for. -/
theorem foretold_place {ty : BuiltinType} {length depth : Nat} {p : Payload}
    (hsize : (Event.copied ty length depth).bytes = p.size) (hdepth : h.depth = depth)
    (hrelease : (h.release p.children).1 = .ok ()) :
    Foretold (fun _ _ => True) ⟨[.copied ty length depth], .ok ()⟩ (Copy.container ty length p)
      h := by
  refine ⟨?_, fun _ _ => trivial⟩
  have hpay : h.budget.pay (.copied ty length depth) = h.budget.charge p.size := by
    rw [Budget.pay, hsize]
  rw [Copy.container, Answer.paid]
  rcases allocate_cases hrelease with ⟨v, k, hcharge, hk, hplace⟩ | ⟨failure, k, hcharge, hplace⟩
  · rw [bind_apply_ok (by rw [hplace]), hplace, Budget.spend_cons_of_ok (hpay.trans hcharge)]
    show ([Event.copied ty length k.depth], Except.ok k.budget) = _
    rw [hk, hdepth]
    rfl
  · rw [bind_apply_error (by rw [hplace]), hplace,
      Budget.spend_cons_of_error (hpay.trans hcharge)]
    rfl

/-- What was carried is given back. -/
theorem exists_release {start : Heap} {held : Multiset Slot} {vs : List Value}
    (hh : start.Carries held vs h) : ∃ k, release vs h = ⟨.ok (), k, []⟩ := by
  have hs := hh.sound
  rw [slotsOf_coe] at hs
  exact ⟨_, release_apply_ok (Prod.ext hs.release.1 rfl)⟩

end Action

end ValueHeap
