import ValueHeap.Proofs.Compare.Blame
import ValueHeap.Proofs.Equal

/-!
# Rich equality is an equivalence

A result of `==` says whether two values have the same form, and to have the same form is an
equivalence.  The rules themselves do not look like it: dicts and sets are gone through in one
direction only, sequences take identical items for equal, and numbers come in five representations.

Besides a result there is one other way to end.  A comparison may go through the parts in another
order than the reversed one, and so it may run out of levels where the other did not.

## What is here

* `Heap.Same` and `Heap.TooDeep` — what may come of `==`, beside a denial.
* `Heap.Alike.same_or_tooDeep` — values of the same form are the same, if they can be compared.
* `richCompare_equivalence` — the laws of an equivalence, in whatever can come about.
-/

set_option autoImplicit false

namespace ValueHeap

namespace Heap

variable {h : Heap} {mode : Mode} {a b : Value}

/-- The values are identical, or `==` says that they are equal. -/
def Same (h : Heap) (mode : Mode) (a b : Value) : Prop :=
  a.isIdentical b = true ∨ (richCompare mode a b .eq h).result = .ok true

/-- The values are nested too deeply to be compared, which is reported as a recursion error. -/
def TooDeep (h : Heap) (mode : Mode) (a b : Value) : Prop :=
  (richCompare mode a b .eq h).result = .error (.error (.raised .comparisonTooDeep))

theorem Same.alike (hk : h.Keyed) (hab : h.Same mode a b) : h.Alike a b :=
  Equal.alike hk (hab.imp_right fun heq => ⟨mode, h.levelsLeft, Action.result_consult_eq_ok.1 heq⟩)

/-- Values of the same form are found to be the same, unless they are nested too deeply. -/
theorem Alike.same_or_tooDeep (hc : h.Coherent) (ha : h.Names a) (hb : h.Names b)
    (hab : h.Alike a b) : h.Same mode a b ∨ h.TooDeep mode a b := by
  by_cases heq : a = b
  · exact Or.inl (Or.inl (Value.isIdentical_iff.2 heq))
  rcases Compare.within_eq_of_alike hc ha hb heq hab with hr | hr
  · exact Or.inl (Or.inr (Action.result_consult_eq_ok.2 hr))
  · refine Or.inr ?_
    rw [TooDeep, richCompare, Action.result_consult, hr]
    rfl

end Heap

/-- **Rich equality is an equivalence.**  In whatever can come about, and in either mode, every
value in use is the same as itself.  If `a` and `b` are the same, then so are `b` and `a`, and if
`b` and `d` are the same as well, then so are `a` and `d` — unless the two values in question are
nested too deeply to be compared. -/
theorem richCompare_equivalence {budget : Budget} {c : Custody} (hc : Reachable budget c)
    (mode : Mode) :
    (∀ a, c.heap.Same mode a a) ∧
      (∀ a b, c.heap.Names a → c.heap.Names b → c.heap.Same mode a b →
        c.heap.Same mode b a ∨ c.heap.TooDeep mode b a) ∧
      ∀ a b d, c.heap.Names a → c.heap.Names b → c.heap.Names d → c.heap.Same mode a b →
        c.heap.Same mode b d → c.heap.Same mode a d ∨ c.heap.TooDeep mode a d := by
  have hcoherent := hc.sound.coherent
  have hk := hcoherent.keyed
  refine ⟨fun a => Or.inl (Value.isIdentical_refl a), ?_, ?_⟩
  · intro a b ha hb hab
    exact (hab.alike hk).symm.same_or_tooDeep hcoherent hb ha
  · intro a b d ha hb hd hab hbd
    exact ((hab.alike hk).trans (hbd.alike hk)).same_or_tooDeep hcoherent ha hd

/-- Three lists begin with the same NaN and go on with a set: of 1 and 2, of 2.0 and `True`, and of
2 and 1.0.  The first one is the same as the last one because each of them is the same as the one
between. -/
theorem richCompare_equivalence_sets :
    ∃ c : Custody, Reachable .untracked c ∧
      c.heap.find? 1 = some (.list [.float ⟨0x7ff8000000000000⟩, .ref 0]) ∧
      c.heap.find? 0 = some (.set [⟨.int 1, 1⟩, ⟨.int 2, 2⟩]) ∧
      c.heap.find? 3 = some (.list [.float ⟨0x7ff8000000000000⟩, .ref 2]) ∧
      c.heap.find? 2 = some (.set [⟨.float ⟨0x4000000000000000⟩, 2⟩, ⟨.bool true, 1⟩]) ∧
      c.heap.find? 5 = some (.list [.float ⟨0x7ff8000000000000⟩, .ref 4]) ∧
      c.heap.find? 4 = some (.set [⟨.int 2, 2⟩, ⟨.float ⟨0x3ff0000000000000⟩, 1⟩]) ∧
      c.heap.Same .strict (.ref 1) (.ref 3) ∧ c.heap.Same .strict (.ref 3) (.ref 5) ∧
      (c.heap.Same .strict (.ref 1) (.ref 5) ∨ c.heap.TooDeep .strict (.ref 1) (.ref 5)) := by
  let nan : Object := .float ⟨0x7ff8000000000000⟩
  let o : Object := .tuple [.list [nan, .set [.int 1, .int 2]],
    .list [nan, .set [.float ⟨0x4000000000000000⟩, .bool true]],
    .list [nan, .set [.int 2, .float ⟨0x3ff0000000000000⟩]]]
  let c : Custody := Custody.after ⟨Heap.empty .untracked, 0⟩ (.build o) [.ref 6]
  have hc : Reachable .untracked c :=
    .result [.ref 6] .start (Request.permitted_build o _) (by decide +kernel)
  have hfirst : c.heap.Same .strict (.ref 1) (.ref 3) := Or.inr (by decide +kernel)
  have hlast : c.heap.Same .strict (.ref 3) (.ref 5) := Or.inr (by decide +kernel)
  have hnames {s : Slot} (hs : (c.heap.find? s).isSome) : c.heap.Names (.ref s) :=
    fun t ht => Value.ref.inj ht ▸ hs
  obtain ⟨-, -, htrans⟩ := richCompare_equivalence hc .strict
  refine ⟨c, hc, ?_, ?_, ?_, ?_, ?_, ?_, hfirst, hlast,
    htrans (.ref 1) (.ref 3) (.ref 5) (hnames ?_) (hnames ?_) (hnames ?_) hfirst hlast⟩ <;>
    decide +kernel

end ValueHeap
