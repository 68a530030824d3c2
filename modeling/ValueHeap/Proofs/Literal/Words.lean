import ValueHeap.Object.Literal
import ValueHeap.Proofs.Literal.Figures
import ValueHeap.Proofs.Literal.Phrases

/-!
# Objects that are words

Constants and numbers are words.  The figure of a float has a point or a power in it, except in a
complex number, where a `j` is behind it; so a word is a number of one kind only.

## What is here

* `Object.Plain` — an object without stand-ins.
* `Object.canonical` — an object without what its literal does not show.
* `Lexeme` — the words that stand for objects, which `Lexeme.chars_injective` tells apart.
* `Object.Spoken` and `Object.Spoken.unique` — **a word is the literal of one object**, but for what
  literals do not show.
-/

set_option autoImplicit false

namespace ValueHeap

/-! ## What literals show -/

namespace Object

mutual

/-- No part of the object is a stand-in. -/
def Plain : Object → Prop
  | list items => PlainItems items
  | tuple items => PlainItems items
  | dict entries => PlainEntries entries
  | set elements => PlainItems elements
  | slice start stop step => Plain start ∧ Plain stop ∧ Plain step
  | standIn _ => False
  | _ => True

def PlainItems : List Object → Prop
  | [] => True
  | o :: rest => Plain o ∧ PlainItems rest

def PlainEntries : List (Object × Object) → Prop
  | [] => True
  | (k, v) :: rest => Plain k ∧ Plain v ∧ PlainEntries rest

end

mutual

/-- The object with its integers kept in one way and one NaN for all of them. -/
def canonical : Object → Object
  | int n => bigInt n.toInt
  | float x => float x.withoutPayload
  | complex re im => complex re.withoutPayload im.withoutPayload
  | list items => list (canonicalItems items)
  | tuple items => tuple (canonicalItems items)
  | dict entries => dict (canonicalEntries entries)
  | set elements => set (canonicalItems elements)
  | slice start stop step => slice (canonical start) (canonical stop) (canonical step)
  | o => o

def canonicalItems : List Object → List Object
  | [] => []
  | o :: rest => canonical o :: canonicalItems rest

def canonicalEntries : List (Object × Object) → List (Object × Object)
  | [] => []
  | (k, v) :: rest => (canonical k, canonical v) :: canonicalEntries rest

end

end Object

/-! ## Words -/

/-- The words that are not numbers. -/
inductive Constant
  | none
  | ellipsis
  | true
  | false

def Constant.chars : Constant → List Char
  | none => ['N', 'o', 'n', 'e']
  | ellipsis => ['E', 'l', 'l', 'i', 'p', 's', 'i', 's']
  | true => ['T', 'r', 'u', 'e']
  | false => ['F', 'a', 'l', 's', 'e']

/-- The words that stand for objects: an imaginary number is a figure with a letter behind. -/
inductive Lexeme
  | constant (c : Constant)
  | figure (f : Figure)
  | imaginary (f : Figure)

def Lexeme.chars : Lexeme → List Char
  | constant c => c.chars
  | figure f => f.chars
  | imaginary f => f.chars ++ ['j']

theorem isWordChar_of_isDigit {c : Char} (hc : c.isDigit = true) : isWordChar c = true := by
  rw [isWordChar, Char.isAlphanum, hc, Bool.or_true]
  rfl

theorem Numeral.isWordChar_chars (n : Numeral) : ∀ c ∈ n.chars, isWordChar c = true := by
  intro c hc
  simp only [chars, List.mem_append] at hc
  rcases hc with hc | hc | hc | hc
  · cases hn : n.negative <;> rw [hn] at hc
    · cases hc
    · rw [List.mem_singleton.1 hc]
      rfl
  · exact isWordChar_of_isDigit (n.isDigit_whole c hc)
  · rw [fractionChars] at hc
    split at hc
    · cases hc
    · rcases List.mem_cons.1 hc with rfl | hc
      · rfl
      · exact isWordChar_of_isDigit (n.isDigit_fraction c hc)
  · rcases hp : n.power with _ | ⟨negative, digits⟩
    · rw [hp] at hc
      cases hc
    · rw [hp] at hc
      rcases List.mem_cons.1 hc with rfl | hc
      · rfl
      · rcases List.mem_cons.1 hc with rfl | hc
        · cases negative <;> rfl
        · exact isWordChar_of_isDigit (n.isDigit_power _ hp c hc)

theorem Figure.isWordChar_chars (f : Figure) : ∀ c ∈ f.chars, isWordChar c = true := by
  match f with
  | nan => exact List.all_eq_true.1 rfl
  | infinity negative => cases negative <;> exact List.all_eq_true.1 rfl
  | numeral n => exact n.isWordChar_chars

/-- A figure begins with no capital letter. -/
theorem Figure.exists_cons (f : Figure) : ∃ c l, f.chars = c :: l ∧ c.isUpper = false := by
  match f with
  | nan => exact ⟨_, _, rfl, rfl⟩
  | infinity negative => cases negative <;> exact ⟨_, _, rfl, rfl⟩
  | numeral n =>
    cases hn : n.negative
    · obtain ⟨c, w, hw, hc⟩ :=
        n.exists_whole_append (Numeral.fractionChars n.fraction ++ Numeral.powerChars n.power)
      refine ⟨c, w, by rw [chars, Numeral.chars, hn]; exact hw, ?_⟩
      have hdigit := (Decimal.isDigit_bounds hc).2
      refine decide_eq_false fun hupper => ?_
      have hupper : 65 ≤ c.toNat := hupper.1
      omega
    · exact ⟨_, _, by rw [chars, Numeral.chars, hn]; rfl, rfl⟩

theorem Constant.chars_injective {c d : Constant} (h : c.chars = d.chars) : c = d := by
  revert h
  cases c <;> cases d <;> first | exact fun _ => rfl | exact fun h => absurd h (by decide)

theorem Constant.chars_ne_figure (c : Constant) (f : Figure) (r : List Char) :
    c.chars ≠ f.chars ++ r := by
  obtain ⟨d, l, hf, hd⟩ := f.exists_cons
  rw [hf]
  intro h
  cases c <;> exact absurd hd (by rw [← (List.cons.inj h).1]; decide)

theorem Numeral.ends_nil : Numeral.Ends [] := fun _ h => (nomatch h)

theorem Numeral.ends_cons {c : Char} (l : List Char)
    (hc : (c.isDigit || c == '.' || c == 'e') = false) : Numeral.Ends (c :: l) := by
  rintro d ⟨⟩
  exact hc

namespace Lexeme

theorem isWordChar_chars (l : Lexeme) : ∀ c ∈ l.chars, isWordChar c = true := by
  match l with
  | constant c => cases c <;> exact List.all_eq_true.1 rfl
  | figure f => exact f.isWordChar_chars
  | imaginary f =>
    intro c hc
    rcases List.mem_append.1 hc with hc | hc
    · exact f.isWordChar_chars c hc
    · rw [List.mem_singleton.1 hc]
      rfl

theorem chars_ne_nil (l : Lexeme) : l.chars ≠ [] := by
  match l with
  | constant c => cases c <;> exact List.cons_ne_nil _ _
  | figure f =>
    obtain ⟨c, w, hf, -⟩ := f.exists_cons
    rw [chars, hf]
    exact List.cons_ne_nil _ _
  | imaginary f => exact List.append_ne_nil_of_right_ne_nil _ (List.cons_ne_nil _ _)

/-- A word is one constant or one number. -/
theorem chars_injective {l m : Lexeme} (h : l.chars = m.chars) : l = m := by
  have hj : Numeral.Ends ['j'] := Numeral.ends_cons _ rfl
  match l, m with
  | constant c, constant d => exact congrArg constant (Constant.chars_injective h)
  | constant c, figure f => exact absurd (h.trans (List.append_nil _).symm) (c.chars_ne_figure f [])
  | constant c, imaginary f => exact absurd h (c.chars_ne_figure f ['j'])
  | figure f, constant c =>
    exact absurd (h.symm.trans (List.append_nil _).symm) (c.chars_ne_figure f [])
  | imaginary f, constant c => exact absurd h.symm (c.chars_ne_figure f ['j'])
  | figure f, figure g =>
    rw [chars, chars, ← List.append_nil f.chars, ← List.append_nil g.chars] at h
    exact congrArg figure (Figure.append_inj Numeral.ends_nil Numeral.ends_nil h).1
  | figure f, imaginary g =>
    rw [chars, chars, ← List.append_nil f.chars] at h
    exact absurd (Figure.append_inj Numeral.ends_nil hj h).2 (by decide)
  | imaginary f, figure g =>
    rw [chars, chars, ← List.append_nil g.chars] at h
    exact absurd (Figure.append_inj hj Numeral.ends_nil h).2 (by decide)
  | imaginary f, imaginary g =>
    exact congrArg imaginary (Figure.append_inj hj hj h).1

end Lexeme

namespace Object

variable {a b : Object} {l m : Lexeme}

/-- The objects that are words. -/
inductive Spoken : Object → Lexeme → Prop
  | none : Spoken .none (.constant .none)
  | ellipsis : Spoken .ellipsis (.constant .ellipsis)
  | true : Spoken (.bool Bool.true) (.constant .true)
  | false : Spoken (.bool Bool.false) (.constant .false)
  | int (n : Int64) : Spoken (.int n) (.figure (.numeral (.ofInt n.toInt)))
  | bigInt (n : Int) : Spoken (.bigInt n) (.figure (.numeral (.ofInt n)))
  | float {x : Binary64} {f : Figure} (hf : ∀ n, f = .numeral n → FloatLiteral.Written n)
    (hx : f.Denotes x) : Spoken (.float x) (.figure f)
  | complex {im : Binary64} {f : Figure} (hx : f.Denotes im) :
    Spoken (.complex .zero im) (.imaginary f)

theorem Spoken.of_integer {n : Int} (hb : Spoken b (.figure (.numeral (.ofInt n)))) :
    b.canonical = .bigInt n := by
  generalize hf : Figure.numeral (.ofInt n) = f at hb
  cases hb with
  | int m => exact congrArg Object.bigInt (Numeral.ofInt_injective (Figure.numeral.inj hf)).symm
  | bigInt m => exact congrArg Object.bigInt (Numeral.ofInt_injective (Figure.numeral.inj hf)).symm
  | float hwritten => exact absurd (hwritten _ hf.symm) (FloatLiteral.not_written_ofInt n)

theorem Spoken.of_float {f : Figure} {x : Binary64} (hb : Spoken b (.figure f))
    (hwritten : ∀ n, f = .numeral n → FloatLiteral.Written n) (hx : f.Denotes x) :
    b.canonical = .float x.withoutPayload := by
  cases hb with
  | int m | bigInt m => exact absurd (hwritten _ rfl) (FloatLiteral.not_written_ofInt _)
  | float _ hy => exact congrArg Object.float (hy.unique hx)

/-- A word is one object but for what literals do not show. -/
theorem Spoken.unique (ha : Spoken a l) (hb : Spoken b l) : a.canonical = b.canonical := by
  cases ha with
  | none | ellipsis | true | false =>
    cases hb
    rfl
  | int m => exact hb.of_integer.symm
  | bigInt m => exact hb.of_integer.symm
  | float hwritten hx => exact (hb.of_float hwritten hx).symm
  | complex hx =>
    cases hb with
    | complex hy => rw [canonical, canonical, hx.unique hy]

end Object

end ValueHeap
