import ValueHeap.Proofs.Answer

/-!
# Two answers side by side

Two runs of one operation, on two heaps, in two modes or with different numbers of levels left, are
held against each other.  Where both end in a result, the results are related.  A run may also stop,
and then there must be an excuse: for the first run to stop, whatever the second one does, for the
second one, or for both to stop as they do.  Where neither stops without the other, what they report
may have to be the same.

What such runs are put together from is held against each other part by part, so the lemmas here
follow the ways in which answers are put together.  With one and the same answer on both sides they
say what it may stop with.

## What is here

* `Leeway` — what counts as an excuse.
* `Answer.Matches` — two answers with related results, or with an excuse.
* `Answer.Matches.bind` and its like — one lemma for each way in which answers are put together.
* `Answer.Matches.result_eq` — what two runs come to that have no excuse.
* `Answer.Stops` — what an answer may stop with, which is how it matches itself.
-/

set_option autoImplicit false

namespace ValueHeap

/-- What excuses two runs from ending in related results. -/
structure Leeway where
  /-- What the first one may stop with, whatever the second one does. -/
  left : Halt → Prop
  /-- What the second one may stop with, whatever the first one does. -/
  right : Halt → Prop
  /-- What the two may stop with together. -/
  both : Halt → Halt → Prop
  /-- Whether they have to report the same. -/
  heard : Prop

/-- Neither run may stop without the other.  Where one answer is held against itself, this is what
it may stop with. -/
def Leeway.only (P : Halt → Prop) : Leeway :=
  ⟨fun _ => False, fun _ => False, fun e _ => P e, False⟩

namespace Answer

variable {α β γ δ : Type} {l m : Leeway} {R : α → β → Prop} {S : γ → δ → Prop}
  {x : Answer α} {y : Answer β}

/-- Both answers are results that are related, or there is an excuse. -/
inductive Matches (l : Leeway) (R : α → β → Prop) (x : Answer α) (y : Answer β) : Prop
  | left {e : Halt} (hx : x.result = .error e) (he : l.left e)
  | right {e : Halt} (hy : y.result = .error e) (he : l.right e)
  | both {e e' : Halt} (hx : x.result = .error e) (hy : y.result = .error e') (he : l.both e e')
      (hes : l.heard → x.events = y.events)
  | ok {a : α} {b : β} (hx : x.result = .ok a) (hy : y.result = .ok b) (hab : R a b)
      (hes : l.heard → x.events = y.events)

namespace Matches

theorem pure {a : α} {b : β} (hab : R a b) :
    Matches l R (Pure.pure a : Answer α) (Pure.pure b : Answer β) :=
  .ok rfl rfl hab fun _ => rfl

/-- More excuses and a weaker relation do no harm. -/
theorem mono {R' : α → β → Prop} (hxy : Matches l R x y) (hleft : ∀ e, l.left e → m.left e)
    (hright : ∀ e, l.right e → m.right e) (hboth : ∀ e e', l.both e e' → m.both e e')
    (hheard : m.heard → l.heard) (hR : ∀ a b, R a b → R' a b) : Matches m R' x y := by
  cases hxy with
  | left hx he => exact .left hx (hleft _ he)
  | right hy he => exact .right hy (hright _ he)
  | both hx hy he hes => exact .both hx hy (hboth _ _ he) fun hm => hes (hheard hm)
  | ok hx hy hab hes => exact .ok hx hy (hR _ _ hab) fun hm => hes (hheard hm)

/-- An answer matches itself if it may stop as it does. -/
theorem refl (hx : ∀ e, x.result = .error e → l.both e e) : Matches l Eq x x := by
  cases hr : x.result with
  | error e => exact .both hr hr (hx e hr) fun _ => rfl
  | ok a => exact .ok hr hr rfl fun _ => rfl

theorem bind {f : α → Answer γ} {g : β → Answer δ} (hxy : Matches l R x y)
    (hfg : ∀ a b, x.result = .ok a → y.result = .ok b → R a b → Matches l S (f a) (g b)) :
    Matches l S (x >>= f) (y >>= g) := by
  cases hxy with
  | left hx he => exact .left (by rw [result_bind, hx]; rfl) he
  | right hy he => exact .right (by rw [result_bind, hy]; rfl) he
  | both hx hy he hes =>
    refine .both (by rw [result_bind, hx]; rfl) (by rw [result_bind, hy]; rfl) he fun hl => ?_
    rw [events_bind, events_bind, hx, hy, hes hl]
  | @ok a b hx hy hab hes =>
    have hx' : (x >>= f).result = (f a).result := by rw [result_bind, hx]; rfl
    have hy' : (y >>= g).result = (g b).result := by rw [result_bind, hy]; rfl
    have hes' (hl : l.heard) (hnext : (f a).events = (g b).events) :
        (x >>= f).events = (y >>= g).events := by
      simp only [events_bind, hx, hy, hes hl, hnext]
    cases hfg a b hx hy hab with
    | left h he => exact .left (hx'.trans h) he
    | right h he => exact .right (hy'.trans h) he
    | both h h' he hnext => exact .both (hx'.trans h) (hy'.trans h') he fun hl => hes' hl (hnext hl)
    | ok h h' hcd hnext => exact .ok (hx'.trans h) (hy'.trans h') hcd fun hl => hes' hl (hnext hl)

/-- The same for two answers with equal results. -/
theorem bind_eq {x y : Answer α} {f : α → Answer γ} {g : α → Answer δ} (hxy : Matches l Eq x y)
    (hfg : ∀ a, x.result = .ok a → y.result = .ok a → Matches l S (f a) (g a)) :
    Matches l S (x >>= f) (y >>= g) :=
  hxy.bind fun a _ hx hy hab => hab ▸ hfg a hx (hab ▸ hy)

theorem map {f : α → γ} {g : β → δ} (hxy : Matches l R x y) (hfg : ∀ a b, R a b → S (f a) (g b)) :
    Matches l S (f <$> x) (g <$> y) := by
  rw [map_eq_pure_bind, map_eq_pure_bind]
  exact hxy.bind fun a b _ _ hab => .pure (hfg a b hab)

/-- Two choices that are made alike. -/
theorem ite {c d : Prop} [Decidable c] [Decidable d] {x' : Answer α} {y' : Answer β} (hcd : c ↔ d)
    (hxy : c → Matches l R x y) (hxy' : ¬c → Matches l R x' y') :
    Matches l R (if c then x else x') (if d then y else y') := by
  by_cases hc : c
  · rw [if_pos hc, if_pos (hcd.1 hc)]
    exact hxy hc
  · rw [if_neg hc, if_neg (mt hcd.2 hc)]
    exact hxy' hc

/-- The second ways to decide a question are only taken where both of the first ones leave it
open. -/
theorem decideOr {first first' : Answer (Option α)} {second second' : Answer α}
    (hfirst : Matches l Eq first first')
    (hsecond : first.result = .ok none → first'.result = .ok none → Matches l Eq second second') :
    Matches l Eq (Answer.decideOr first second) (Answer.decideOr first' second') := by
  refine hfirst.bind_eq fun o ho ho' => ?_
  cases o with
  | none => exact hsecond ho ho'
  | some a => exact .pure rfl

/-- What both find when they look something up. -/
theorem look {n n' : Nat} {u : Except Fault α} {v : Except Fault β} {a : α} {b : β}
    (hu : u = .ok a) (hv : v = .ok b) (hab : R a b) :
    Matches l R (Answer.look n u) (Answer.look n' v) := by
  rw [hu, hv]
  exact .pure hab

/-! ## Results -/

/-- Runs that stop alike, and not without each other, come to the same. -/
theorem result_eq {x y : Answer α} (hxy : Matches l Eq x y)
    (hleft : ∀ e, x.result = .error e → ¬l.left e) (hright : ∀ e, y.result = .error e → ¬l.right e)
    (hboth : ∀ e e', l.both e e' → e = e') : x.result = y.result := by
  cases hxy with
  | left hx he => exact absurd he (hleft _ hx)
  | right hy he => exact absurd he (hright _ hy)
  | both hx hy he => rw [hx, hy, hboth _ _ he]
  | ok hx hy hab => rw [hx, hy, hab]

/-- What the first run comes to, the second one does as well, if it may not stop alone. -/
theorem result_eq_ok {x y : Answer α} {a : α} (hxy : Matches l Eq x y) (hright : ∀ e, ¬l.right e)
    (ha : x.result = .ok a) : y.result = .ok a := by
  cases hxy with
  | left hx => rw [hx] at ha; cases ha
  | right _ he => exact absurd he (hright _)
  | both hx => rw [hx] at ha; cases ha
  | ok hx hy hab => rw [hy, ← hab, ← hx, ha]

end Matches

/-! ## One answer by itself -/

/-- What an answer may stop with. -/
def Stops (P : Halt → Prop) (x : Answer α) : Prop := ∀ e, x.result = .error e → P e

theorem stops_iff {P : Halt → Prop} : x.Stops P ↔ Matches (.only P) Eq x x := by
  constructor
  · intro hx
    exact .refl hx
  · intro hx e he
    cases hx with
    | left _ hfalse => exact hfalse.elim
    | right _ hfalse => exact hfalse.elim
    | both hx _ hP => exact Except.error.inj (he.symm.trans hx) ▸ hP
    | ok hx => rw [hx] at he; cases he

namespace Stops

variable {P : Halt → Prop}

theorem pure (a : α) : (Pure.pure a : Answer α).Stops P := nofun

theorem report (e : Event) : (Answer.report e).Stops P := nofun

theorem look {n : Nat} (hP : ∀ f, P (.fault f n)) (u : Except Fault α) :
    (Answer.look n u).Stops P := by
  cases u with
  | error f =>
    rintro e ⟨⟩
    exact hP f
  | ok a => exact .pure a

theorem bind {f : α → Answer γ} (hx : x.Stops P) (hf : ∀ a, x.result = .ok a → (f a).Stops P) :
    (x >>= f).Stops P :=
  stops_iff.2 ((stops_iff.1 hx).bind_eq fun a ha _ => stops_iff.1 (hf a ha))

end Stops

end Answer

end ValueHeap
