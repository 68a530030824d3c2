import ValueHeap.Text.Quoted

/-!
# The usual way to quote texts and bytes

By the usual rules texts and byte strings are quoted alike: between double quotes if there is a
single quote in them and no double one, with an escape for the backslash, the quote in use and the
line ends and tabs, and with two hexadecimal digits for what cannot be printed.  A byte is quoted
as the character with its number.

The library has a rule of its own on either side.  A text is quoted without hexadecimal digits, so
that a control character without a short escape is left as it is; a byte string never stands between
double quotes.

## What is here

* `Quoted.usual` — the usual quotation.
* `Quoted.escapeChar_eq` and `Quoted.escapeByte_eq` — how a character and a byte are escaped.
* `Quoted.usual_iff` — **the texts and the byte strings that are quoted as usual**.
-/

set_option autoImplicit false

namespace ValueHeap.Quoted

/-! ## The usual quotation -/

/-- The quote for a text: a double one if that spares an escape. -/
def usualQuote (chars : List Char) : Char :=
  if '\'' ∈ chars ∧ '"' ∉ chars then '"' else '\''

/-- A character below the blank, or one from the last of the first 128 on. -/
def Unprintable (c : Char) : Prop :=
  c.toNat < 0x20 ∨ 0x7f ≤ c.toNat

instance (c : Char) : Decidable (Unprintable c) := inferInstanceAs (Decidable (_ ∨ _))

/-- An unprintable character that has no short escape. -/
def Nameless (c : Char) : Prop :=
  Unprintable c ∧ c ∉ ['\n', '\r', '\t']

instance (c : Char) : Decidable (Nameless c) := inferInstanceAs (Decidable (_ ∧ _))

/-- A character between quotes. -/
def usualEscape (quote c : Char) : List Char :=
  if c = '\\' ∨ c = quote then ['\\', c]
  else if c = '\n' then ['\\', 'n']
  else if c = '\r' then ['\\', 'r']
  else if c = '\t' then ['\\', 't']
  else if Unprintable c then
    ['\\', 'x', Nat.digitChar (c.toNat / 16), Nat.digitChar (c.toNat % 16)]
  else [c]

/-- Characters between quotes. -/
def enclosed (quote : Char) (escape : Char → List Char) (chars : List Char) : List Char :=
  quote :: chars.flatMap escape ++ [quote]

/-- The usual quotation of characters. -/
def usual (chars : List Char) : List Char :=
  enclosed (usualQuote chars) (usualEscape (usualQuote chars)) chars

/-- Every byte as the character with its number. -/
def ofBytes (data : List UInt8) : List Char :=
  data.map fun b => Char.ofNat b.toNat

/-! ## Texts -/

theorem quoteOf_eq (chars : List Char) : quoteOf chars = usualQuote chars := by
  have hcontains (c : Char) : chars.contains c = true ↔ c ∈ chars := List.contains_iff_mem
  simp only [quoteOf, usualQuote, Bool.and_eq_true, Bool.not_eq_true', Bool.eq_false_iff, Ne,
    hcontains]

theorem usualQuote_eq_or (chars : List Char) :
    usualQuote chars = '\'' ∨ usualQuote chars = '"' := by
  rw [usualQuote]
  split
  · exact Or.inr rfl
  · exact Or.inl rfl

/-- A character is escaped as usual unless it is nameless: then it is left as it is. -/
theorem escapeChar_eq {quote : Char} (hquote : quote = '\'' ∨ quote = '"') (c : Char) :
    escapeChar quote c = if Nameless c then [c] else usualEscape quote c := by
  by_cases hshort : c ∈ ['\\', '\n', '\r', '\t', quote]
  · simp only [List.mem_cons, List.not_mem_nil, or_false] at hshort
    rcases hquote with rfl | rfl <;> rcases hshort with rfl | rfl | rfl | rfl | rfl <;> rfl
  · simp only [List.mem_cons, List.not_mem_nil, or_false, not_or] at hshort
    obtain ⟨hback, hn, hr, ht, hq⟩ := hshort
    have hnameless : Nameless c ↔ Unprintable c := by simp [Nameless, hn, hr, ht]
    rw [escapeChar, usualEscape, if_neg hback, if_neg hn, if_neg hr, if_neg ht, if_neg hq,
      if_neg (not_or.2 ⟨hback, hq⟩), if_neg hn, if_neg hr, if_neg ht]
    by_cases hc : Unprintable c
    · rw [if_pos (hnameless.2 hc)]
    · rw [if_neg (mt hnameless.1 hc), if_neg hc]

/-- How a text is quoted. -/
theorem text_eq (s : String) :
    text s = String.ofList (enclosed (usualQuote s.toList)
      (fun c => if Nameless c then [c] else usualEscape (usualQuote s.toList) c) s.toList) := by
  have hescape := funext (escapeChar_eq (usualQuote_eq_or s.toList))
  rw [← hescape, ← quoteOf_eq]
  rfl

/-- In the usual quotation of the first 128 characters everything can be printed. -/
theorem printable_of_mem_usualEscape {quote c d : Char} (hquote : quote = '\'' ∨ quote = '"')
    (hc : c.toNat < 128) (hd : d ∈ usualEscape quote c) : ¬Unprintable d := by
  have hhex {n : Nat} (hn : n < 16) : ¬Unprintable (Nat.digitChar n) := by
    revert n
    decide
  rw [usualEscape] at hd
  split at hd
  · next h =>
    simp only [List.mem_cons, List.not_mem_nil, or_false] at hd
    rcases hd with rfl | rfl
    · decide
    · rcases h with rfl | rfl
      · decide
      · rcases hquote with rfl | rfl <;> decide
  · repeat' split at hd
    all_goals simp only [List.mem_cons, List.not_mem_nil, or_false] at hd
    · rcases hd with rfl | rfl <;> decide
    · rcases hd with rfl | rfl <;> decide
    · rcases hd with rfl | rfl <;> decide
    · rcases hd with rfl | rfl | rfl | rfl
      · decide
      · decide
      · exact hhex (by omega)
      · exact hhex (by omega)
    · next h => exact hd ▸ h

/-- A text is quoted as usual unless it has a nameless character, which is left as it is. -/
theorem text_eq_usual_iff {s : String} (hs : ∀ c ∈ s.toList, c.toNat < 128) :
    text s = String.ofList (usual s.toList) ↔ ∀ c ∈ s.toList, ¬Nameless c := by
  have hquote := usualQuote_eq_or s.toList
  rw [text_eq, String.ofList_inj, usual]
  constructor
  · intro heq c hc hnameless
    have hmem : c ∈ enclosed (usualQuote s.toList)
        (fun c => if Nameless c then [c] else usualEscape (usualQuote s.toList) c) s.toList := by
      rw [enclosed, List.cons_append, List.mem_cons, List.mem_append, List.mem_flatMap]
      exact Or.inr (Or.inl ⟨c, hc, by rw [if_pos hnameless]; exact List.mem_singleton_self c⟩)
    have hprintable : ¬Unprintable (usualQuote s.toList) := by
      rcases hquote with h | h <;> rw [h] <;> decide
    rw [heq, enclosed, List.cons_append, List.mem_cons, List.mem_append, List.mem_flatMap,
      List.mem_singleton] at hmem
    rcases hmem with rfl | ⟨d, hd, hcd⟩ | rfl
    · exact hprintable hnameless.1
    · exact printable_of_mem_usualEscape hquote (hs d hd) hcd hnameless.1
    · exact hprintable hnameless.1
  · intro hnone
    rw [enclosed, enclosed, List.flatMap_def,
      List.map_congr_left fun c hc => if_neg (hnone c hc), ← List.flatMap_def]

/-! ## Bytes -/

/-- A byte is escaped as the character with its number is between single quotes. -/
theorem escapeByte_eq (b : UInt8) : escapeByte b = usualEscape '\'' (Char.ofNat b.toNat) := by
  have hall : ∀ n < 256, escapeByte (UInt8.ofNat n) = usualEscape '\'' (Char.ofNat n) := by
    decide +kernel
  have h := hall b.toNat b.toNat_lt
  rwa [UInt8.ofNat_toNat] at h

/-- How a byte string is quoted. -/
theorem bytes_eq (data : List UInt8) :
    bytes data = String.ofList ('b' :: enclosed '\'' (usualEscape '\'') (ofBytes data)) := by
  rw [bytes, enclosed, ofBytes, List.flatMap_map, funext escapeByte_eq]
  rfl

/-- A byte string is quoted as usual unless the usual quote is a double one. -/
theorem bytes_eq_usual_iff (data : List UInt8) :
    bytes data = String.ofList ('b' :: usual (ofBytes data)) ↔
      ¬('\'' ∈ ofBytes data ∧ '"' ∉ ofBytes data) := by
  rw [bytes_eq, String.ofList_inj, List.cons_inj_right, usual]
  constructor
  · intro heq hdouble
    rw [usualQuote, if_pos hdouble, enclosed, enclosed] at heq
    exact absurd (List.cons.inj heq).1 (by decide)
  · intro hsingle
    rw [usualQuote, if_neg hsingle]

/-! ## Both -/

/-- A text is quoted as usual, except that nameless characters are left as they are, and a byte
string is, except that it never stands between double quotes.  **So the first 128 characters are
quoted as usual unless a nameless one is among them, and a byte string is unless double quotes would
spare an escape.** -/
theorem usual_iff {s : String} (hs : ∀ c ∈ s.toList, c.toNat < 128) (data : List UInt8) :
    ((text s = String.ofList (usual s.toList) ↔ ∀ c ∈ s.toList, ¬Nameless c) ∧
      text s = String.ofList (enclosed (usualQuote s.toList)
        (fun c => if Nameless c then [c] else usualEscape (usualQuote s.toList) c) s.toList)) ∧
    (bytes data = String.ofList ('b' :: usual (ofBytes data)) ↔
      ¬('\'' ∈ ofBytes data ∧ '"' ∉ ofBytes data)) ∧
    bytes data = String.ofList ('b' :: enclosed '\'' (usualEscape '\'') (ofBytes data)) :=
  ⟨⟨text_eq_usual_iff hs, text_eq s⟩, bytes_eq_usual_iff data, bytes_eq data⟩

theorem forall_mem_of_all {p : Char → Prop} [DecidablePred p] {l : List Char}
    (h : (l.all fun c => decide (p c)) = true) : ∀ c ∈ l, p c :=
  fun c hc => of_decide_eq_true (List.all_eq_true.1 h c hc)

theorem usual_iff_contraction :
    (∀ c ∈ "it's".toList, c.toNat < 128) ∧ text "it's" = String.ofList (usual "it's".toList) ∧
      text "it's" = "\"it's\"" ∧
      bytes [0x69, 0x74] = String.ofList ('b' :: usual (ofBytes [0x69, 0x74])) :=
  have hascii : ∀ c ∈ "it's".toList, c.toNat < 128 := forall_mem_of_all (by decide)
  have hboth := usual_iff hascii [0x69, 0x74]
  ⟨hascii, hboth.1.1.2 (forall_mem_of_all (by decide)), hboth.1.2, hboth.2.1.2 (by decide)⟩

/-- A single quote is quoted between double ones in a text and between single ones in a byte string,
and a control character is quoted as its number in a byte string and left as it is in a text. -/
theorem quotes_and_controls_not_usual :
    bytes [0x27] = "b'\\''" ∧ bytes [0x27] ≠ String.ofList ('b' :: usual (ofBytes [0x27])) ∧
      text "\x01" = "'\x01'" ∧ text "\x01" ≠ String.ofList (usual "\x01".toList) := by
  refine ⟨bytes_eq _, ?_, text_eq _, ?_⟩
  · rw [Ne, bytes_eq_usual_iff]
    decide
  · rw [Ne, text_eq_usual_iff (forall_mem_of_all (by decide))]
    exact fun h => h '\x01' (by decide) (by decide)

end ValueHeap.Quoted
