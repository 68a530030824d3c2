import ValueHeap.Proofs.Compare.Ranking
import ValueHeap.Proofs.Lasting

/-!
# The order of the fallback

Where no type knows how to compare two values, total mode orders them by rules that know no
refusal.  The rank of a value puts all values of a heap into one order, and since a rank depends on
nothing that changes, this order is still the same after whatever a caller has asked for in between.

## What is here

* `Heap.Places` — the order in which the fallback puts two values.
* `Compare.Ranked.of_lasts` — a value in use keeps its rank.
* `compareByFallback_strictOrder` — it is a strict total order, which stays what it is.
-/

set_option autoImplicit false

namespace ValueHeap

open Std

namespace Heap

variable {h : Heap} {a b e : Value} {o : Ordering}

/-- The fallback of total mode puts two values in this order: every operator says of them what it
says of the order. -/
def Places (h : Heap) (a b : Value) (o : Ordering) : Prop :=
  ∀ op, (compareByFallback .total a b op h).result = .ok (op.holds o)

/-- Values are placed as their ranks are ordered. -/
theorem places_of_ranked (hc : h.Coherent) (ha : h.Names a) (hb : h.Names b)
    {x y : Form.Label} (hx : Compare.Ranked h a x) (hy : Compare.Ranked h b y) :
    h.Places a b (x.order y) := by
  intro op
  obtain ⟨⟨rule, o⟩, ho⟩ := Compare.exists_fallbackOrder hc ha hb
  refine Action.result_consult_eq_ok.2 ?_
  rw [Compare.fallback, Answer.result_look_bind ho, ← hx.fallbackOrder hy ho]
  rfl

/-- Two values have one place. -/
theorem Places.unique {o' : Ordering} (ho : h.Places a b o) (ho' : h.Places a b o') : o = o' := by
  have hlt := Except.ok.inj ((ho .lt).symm.trans (ho' .lt))
  have hgt := Except.ok.inj ((ho .gt).symm.trans (ho' .gt))
  revert hlt hgt
  cases o <;> cases o' <;> decide

end Heap

/-- A rank lasts as long as the value does: every step keeps it. -/
theorem Compare.Ranked.of_lasts {budget : Budget} {c d : Custody} {vs : List Value} {a : Value}
    {x : Form.Label} (hx : Ranked c.heap a x) (hc : Reachable budget c) (ha : c.heap.Names a)
    (hd : Custody.Lasts vs c d) (hmem : a ∈ vs) : d.heap.Names a ∧ Ranked d.heap a x := by
  induction hd with
  | refl => exact ⟨ha, hx⟩
  | @tail c' d hlasts hlast ih =>
    have hc' := hc.lasts hlasts
    have hag := hlast.1.agree hc'.sound
    have hnames := hlast.2 a hmem
    exact ⟨hnames, ih.2.of_agree hag (hc'.step hlast.1).sound.coherent hnames⟩

/-- **The fallback of total mode is a strict total order that stays what it is**, in whatever can
come about.  Any two values in use are in an order, equal only if they are the same value, reversed
when they are exchanged, and the same in whatever comes about while both stay in use; and the order
is transitive. -/
theorem compareByFallback_strictOrder {budget : Budget} {c : Custody} (hc : Reachable budget c) :
    (∀ a b, c.heap.Names a → c.heap.Names b →
      ∃ o, c.heap.Places a b o ∧ c.heap.Places b a o.swap ∧ (o = .eq ↔ a.isIdentical b = true) ∧
        ∀ d, Custody.Lasts [a, b] c d → d.heap.Places a b o) ∧
      ∀ a b e, c.heap.Names a → c.heap.Names b → c.heap.Names e →
        c.heap.Places a b .lt → c.heap.Places b e .lt → c.heap.Places a e .lt := by
  have hcoherent := hc.sound.coherent
  refine ⟨fun a b ha hb => ?_, fun a b e ha hb he hab hbe => ?_⟩
  · obtain ⟨x, hx⟩ := Compare.exists_ranked hcoherent ha
    obtain ⟨y, hy⟩ := Compare.exists_ranked hcoherent hb
    obtain ⟨⟨rule, o⟩, ho⟩ := Compare.exists_fallbackOrder hcoherent ha hb
    have horder := hx.fallbackOrder hy ho
    refine ⟨x.order y, Heap.places_of_ranked hcoherent ha hb hx hy, ?_, ?_, fun d hd => ?_⟩
    · have hswap : y.order x = (x.order y).swap := OrientedCmp.eq_swap
      rw [← hswap]
      exact Heap.places_of_ranked hcoherent hb ha hy hx
    · rw [← horder, Value.isIdentical_iff]
      exact Compare.fallbackOrder_eq_iff ho
    · obtain ⟨ha', hx'⟩ := hx.of_lasts hc ha hd List.mem_cons_self
      obtain ⟨hb', hy'⟩ := hy.of_lasts hc hb hd (List.mem_cons_of_mem a List.mem_cons_self)
      exact Heap.places_of_ranked (hc.lasts hd).sound.coherent ha' hb' hx' hy'
  · obtain ⟨x, hx⟩ := Compare.exists_ranked hcoherent ha
    obtain ⟨y, hy⟩ := Compare.exists_ranked hcoherent hb
    obtain ⟨z, hz⟩ := Compare.exists_ranked hcoherent he
    have hxy := hab.unique (Heap.places_of_ranked hcoherent ha hb hx hy)
    have hyz := hbe.unique (Heap.places_of_ranked hcoherent hb he hy hz)
    have hxz : x.order z = .lt := TransCmp.lt_trans hxy.symm hyz.symm
    exact hxz ▸ Heap.places_of_ranked hcoherent ha he hx hz

/-- `None` comes before a number, and the number before an instance of a class that is spelled like
the type of `None`, also after a text has been built. -/
theorem compareByFallback_strictOrder_spelling :
    ∃ c d : Custody, Reachable .untracked c ∧ Custody.Lasts [.int 1, .ref 1] c d ∧
      c.heap.find? 0 = some (.userClass "NoneType" none) ∧
      c.heap.find? 1 = some (.userInstance 0) ∧ d.heap.find? 2 = some (.str "a") ∧
      c.heap.Places .none (.int 1) .lt ∧ c.heap.Places (.int 1) (.ref 1) .lt ∧
      c.heap.Places .none (.ref 1) .lt ∧ d.heap.Places (.int 1) (.ref 1) .lt := by
  have hstart : Reachable .untracked _ := .start
  have hclass := hstart.permitted (.newClass "NoneType" none) (by decide) (by decide)
    (fun _ hp => by cases hp) trivial
  have hone := hstart.result [.ref 0] hclass rfl
  have hinstance := hone.permitted (.newInstance (.ref 0)) (by decide) (by decide)
    (fun _ hp => by cases hp) trivial
  have htwo := hone.result [.ref 1] hinstance rfl
  let c : Custody := Custody.after (Custody.after ⟨Heap.empty .untracked, 0⟩
    (.newClass "NoneType" none) [.ref 0]) (.newInstance (.ref 0)) [.ref 1]
  have htext := Request.permitted_build (.str "a") c
  let d : Custody := c.after (.build (.str "a")) [.ref 2]
  have hd : Reachable .untracked d := htwo.result [.ref 2] htext rfl
  have hfirst : c.heap.Names .none := nofun
  have hsecond : c.heap.Names (.int 1) := nofun
  have hthird : c.heap.Names (.ref 1) := htwo.names (by decide)
  have hlasts : Custody.Lasts [.int 1, .ref 1] c d := by
    refine .single ⟨.result [.ref 2] htext rfl, fun v hv => ?_⟩
    rcases List.mem_pair.1 hv with rfl | rfl
    · exact nofun
    · exact hd.names (by decide)
  obtain ⟨hplaces, htrans⟩ := compareByFallback_strictOrder htwo
  have hlow : c.heap.Places .none (.int 1) .lt := fun op => by cases op <;> rfl
  have hhigh : c.heap.Places (.int 1) (.ref 1) .lt := fun op => by cases op <;> rfl
  obtain ⟨o, ho, -, -, hstays⟩ := hplaces _ _ hsecond hthird
  obtain rfl := ho.unique hhigh
  exact ⟨c, d, htwo, hlasts, rfl, rfl, rfl, hlow, hhigh,
    htrans _ _ _ hfirst hsecond hthird hlow hhigh, hstays d hlasts⟩

end ValueHeap
