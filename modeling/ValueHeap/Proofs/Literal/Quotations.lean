import ValueHeap.Proofs.Quoting

/-!
# Quotations are read back

Between quotes no character is written with the quote in use in front, so that the first one that is
not behind a backslash ends the quotation; and what is written for one character is not the
beginning of what is written for another.

## What is here

* `Quoted.Coded` — what may be written for a character.
* `Quoted.Coded.unique` — no two characters are begun alike.
* `Quoted.text_append_inj` and `Quoted.bytes_append_inj` — **a quotation gives back what was quoted
  and what is behind it**.
-/

set_option autoImplicit false

namespace ValueHeap.Quoted

variable {quote c d : Char} {code code' : List Char} {s t r u : List Char}

/-! ## One character -/

/-- The letters of the short escapes. -/
def letters (quote : Char) : List (Char × Char) :=
  [('\\', '\\'), (quote, quote), ('\n', 'n'), ('\r', 'r'), ('\t', 't')]

/-- What may be written for a character between quotes. -/
inductive Coded (quote c : Char) : List Char → Prop
  | plain (hback : c ≠ '\\') (hquote : c ≠ quote) : Coded quote c [c]
  | short {letter : Char} (h : (c, letter) ∈ letters quote) : Coded quote c ['\\', letter]
  | number (h : c.toNat < 256) :
    Coded quote c ['\\', 'x', Nat.digitChar (c.toNat / 16), Nat.digitChar (c.toNat % 16)]

theorem coded_usualEscape (quote : Char) (hc : c.toNat < 256) :
    Coded quote c (usualEscape quote c) := by
  rw [usualEscape]
  split
  · next h => rcases h with rfl | rfl <;> exact .short (by simp [letters])
  · next h =>
    repeat' split
    · next h => exact .short (by simp [letters, h])
    · next h => exact .short (by simp [letters, h])
    · next h => exact .short (by simp [letters, h])
    · exact .number hc
    · exact .plain (fun hback => h (Or.inl hback)) fun hquote => h (Or.inr hquote)

theorem coded_escapeChar (quote c : Char) :
    Coded quote c (escapeChar quote c) := by
  rw [escapeChar]
  repeat' split
  · next h => exact .short (by simp [letters, h])
  · next h => exact .short (by simp [letters, h])
  · next h => exact .short (by simp [letters, h])
  · next h => exact .short (by simp [letters, h])
  · next h => exact .short (by simp [letters, h])
  · next hback _ _ _ h => exact .plain hback h

/-- The letter of a short escape gives back the character. -/
theorem eq_of_letters (hquote : quote = '\'' ∨ quote = '"') {letter : Char}
    (hc : (c, letter) ∈ letters quote) (hd : (d, letter) ∈ letters quote) : c = d := by
  simp only [letters, List.mem_cons, Prod.mk.injEq, List.not_mem_nil, or_false] at hc hd
  rcases hquote with rfl | rfl <;>
    rcases hc with ⟨rfl, rfl⟩ | ⟨rfl, rfl⟩ | ⟨rfl, rfl⟩ | ⟨rfl, rfl⟩ | ⟨rfl, rfl⟩ <;>
    simpa [eq_comm] using hd

theorem x_not_mem_letters (hquote : quote = '\'' ∨ quote = '"') : (c, 'x') ∉ letters quote := by
  rcases hquote with rfl | rfl <;> simp [letters]

theorem digitChar_inj :
    ∀ m < 16, ∀ n < 16, Nat.digitChar m = Nat.digitChar n → m = n := by
  decide

/-- What is written for one character is not the beginning of what is written for another. -/
theorem Coded.unique (hquote : quote = '\'' ∨ quote = '"') (hc : Coded quote c code)
    (hd : Coded quote d code') (h : code ++ r = code' ++ u) : c = d ∧ r = u := by
  cases hc with
  | plain hback _ =>
    cases hd with
    | plain => exact List.cons.inj h
    | short | number => exact absurd (List.cons.inj h).1 hback
  | short hletter =>
    cases hd with
    | plain hback => exact absurd (List.cons.inj h).1.symm hback
    | short hletter' =>
      simp only [List.cons_append, List.nil_append, List.cons.injEq, true_and] at h
      obtain ⟨rfl, rfl⟩ := h
      exact ⟨eq_of_letters hquote hletter hletter', rfl⟩
    | number =>
      simp only [List.cons_append, List.nil_append, List.cons.injEq, true_and] at h
      exact absurd (h.1 ▸ hletter) (x_not_mem_letters hquote)
  | number hlt =>
    cases hd with
    | plain hback => exact absurd (List.cons.inj h).1.symm hback
    | short hletter =>
      simp only [List.cons_append, List.nil_append, List.cons.injEq, true_and] at h
      exact absurd (h.1 ▸ hletter) (x_not_mem_letters hquote)
    | number hlt' =>
      simp only [List.cons_append, List.nil_append, List.cons.injEq, true_and] at h
      have hhigh := digitChar_inj _ (by omega) _ (by omega) h.1
      have hlow := digitChar_inj _ (by omega) _ (by omega) h.2.1
      exact ⟨Char.toNat_inj.1 (by omega), h.2.2⟩

/-- And it does not begin with the quote. -/
theorem Coded.ne_quote (hquote : quote = '\'' ∨ quote = '"') (hc : Coded quote c code) :
    code ++ r ≠ quote :: u := by
  intro h
  have hback : '\\' ≠ quote := by rcases hquote with rfl | rfl <;> decide
  cases hc with
  | plain _ hne => exact hne (List.cons.inj h).1
  | short | number => exact hback (List.cons.inj h).1

/-! ## A quotation -/

/-- What is between quotes can be read back, and so can what is behind them. -/
theorem flatMap_append_inj (hquote : quote = '\'' ∨ quote = '"') {escape : Char → List Char}
    (hs : ∀ c ∈ s, Coded quote c (escape c)) (ht : ∀ c ∈ t, Coded quote c (escape c))
    (h : s.flatMap escape ++ quote :: r = t.flatMap escape ++ quote :: u) : s = t ∧ r = u := by
  induction s generalizing t with
  | nil =>
    cases t with
    | nil => exact ⟨rfl, (List.cons.inj h).2⟩
    | cons d t =>
      rw [List.flatMap_cons, List.append_assoc] at h
      exact absurd h.symm ((ht d List.mem_cons_self).ne_quote hquote)
  | cons c s ih =>
    rw [List.flatMap_cons, List.append_assoc] at h
    cases t with
    | nil => exact absurd h ((hs c List.mem_cons_self).ne_quote hquote)
    | cons d t =>
      rw [List.flatMap_cons, List.append_assoc] at h
      obtain ⟨rfl, hrest⟩ := (hs c List.mem_cons_self).unique hquote (ht d List.mem_cons_self) h
      obtain ⟨rfl, hru⟩ := ih (fun c hc => hs c (List.mem_cons_of_mem _ hc))
        (fun c hc => ht c (List.mem_cons_of_mem _ hc)) hrest
      exact ⟨rfl, hru⟩

/-- The characters of a quoted text. -/
def textChars (s : String) : List Char :=
  enclosed (usualQuote s.toList) (escapeChar (usualQuote s.toList)) s.toList

theorem text_toList (s : String) : (text s).toList = textChars s := by
  rw [text, String.toList_ofList, quoteOf_eq]
  rfl

/-- **A quoted text gives back the text and what is behind it.** -/
theorem text_append_inj {s t : String} (h : textChars s ++ r = textChars t ++ u) :
    s = t ∧ r = u := by
  simp only [textChars, enclosed, List.cons_append, List.append_assoc, List.nil_append] at h
  obtain ⟨hsame, hrest⟩ := List.cons.inj h
  rw [← hsame] at hrest
  obtain ⟨hst, hru⟩ := flatMap_append_inj (usualQuote_eq_or s.toList)
    (fun c _ => coded_escapeChar _ c) (fun c _ => coded_escapeChar _ c) hrest
  exact ⟨String.toList_inj.1 hst, hru⟩

theorem toNat_ofByte (b : UInt8) : (Char.ofNat b.toNat).toNat = b.toNat := by
  have hlt := b.toNat_lt
  have hvalid : b.toNat.isValidChar := Or.inl (by omega)
  rw [Char.ofNat, dif_pos hvalid]
  rfl

theorem ofBytes_injective {data data' : List UInt8} (h : ofBytes data = ofBytes data') :
    data = data' :=
  (List.map_inj_right fun a b hab => UInt8.toNat_inj.1
    (by rw [← toNat_ofByte a, ← toNat_ofByte b, hab])).1 h

theorem coded_ofBytes {data : List UInt8} :
    ∀ c ∈ ofBytes data, Coded '\'' c (usualEscape '\'' c) := by
  intro c hc
  obtain ⟨b, -, rfl⟩ := List.mem_map.1 hc
  exact coded_usualEscape _ (by rw [toNat_ofByte]; exact b.toNat_lt)

/-- The characters of a quoted byte string. -/
def bytesChars (data : List UInt8) : List Char :=
  'b' :: enclosed '\'' (usualEscape '\'') (ofBytes data)

theorem bytes_toList (data : List UInt8) : (bytes data).toList = bytesChars data := by
  rw [bytes_eq, String.toList_ofList]
  rfl

/-- **A quoted byte string gives back the bytes and what is behind it.** -/
theorem bytes_append_inj {data data' : List UInt8}
    (h : bytesChars data ++ r = bytesChars data' ++ u) : data = data' ∧ r = u := by
  simp only [bytesChars, enclosed, List.cons_append, List.append_assoc, List.nil_append,
    List.cons.injEq, true_and] at h
  obtain ⟨hdata, hru⟩ := flatMap_append_inj (Or.inl rfl) coded_ofBytes coded_ofBytes h
  exact ⟨ofBytes_injective hdata, hru⟩

end ValueHeap.Quoted
