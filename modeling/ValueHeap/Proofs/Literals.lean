import ValueHeap.Proofs.Literal.Words

/-!
# Literals are unambiguous

The literal of an object is a phrase: words for constants and numbers, quotations, and groups with
the phrases of the items.  Phrases can be read in only one way, and words by the figures in them, so
a literal gives back its object, except for what it does not show: whether an integer is kept as a
machine integer, and which of the NaNs a NaN is.  A stand-in shows any text, so it must not be among
the parts of the object.

## What is here

* `Object.phrase` and `Object.literal_toList` — the literal as a phrase.
* `Object.canonical_eq_of_phrase` — a phrase gives back the object.
* `Object.literal_eq_iff` — **two objects have one literal exactly when they are the same but for
  what literals do not show**.
-/

set_option autoImplicit false

namespace ValueHeap

/-! ## Objects as phrases -/

namespace Object

/-- A word that is an object. -/
def wordPhrase (chars : List Char) (h : ∃ l : Lexeme, chars = l.chars) : Phrase :=
  .word ⟨chars, fun c hc => by obtain ⟨l, rfl⟩ := h; exact l.isWordChar_chars c hc⟩
    (by obtain ⟨l, rfl⟩ := h; exact l.chars_ne_nil)

def intPhrase (n : Int) : Phrase :=
  wordPhrase (Decimal.text n).toList ⟨.figure (.numeral (.ofInt n)), Numeral.text_eq n⟩

theorem exists_lexeme_float (x : Binary64) :
    ∃ l : Lexeme, (FloatLiteral.text x).toList = l.chars ∧ Spoken (.float x) l := by
  obtain ⟨f, htext, hwritten, hx⟩ := FloatLiteral.exists_text x
  exact ⟨.figure f, by rw [htext, String.toList_ofList]; rfl, .float hwritten hx⟩

theorem exists_lexeme_imaginary (im : Binary64) :
    ∃ l : Lexeme, (FloatLiteral.part im).toList ++ ['j'] = l.chars ∧
      Spoken (.complex .zero im) l := by
  obtain ⟨f, hpart, hx⟩ := FloatLiteral.exists_part im
  exact ⟨.imaginary f, by rw [hpart, String.toList_ofList]; rfl, .complex hx⟩

/-- The sign between the parts of a complex number. -/
def innerSign (im : Binary64) : Char := if im.isNegative && !im.isNaN then '-' else '+'

/-- Both parts of a complex number. -/
def pairChars (re im : Binary64) : List Char :=
  (FloatLiteral.part re).toList ++ innerSign im :: ((FloatLiteral.part im.abs).toList ++ ['j'])

theorem isWordChar_part (x : Binary64) :
    ∀ c ∈ (FloatLiteral.part x).toList, isWordChar c = true := by
  obtain ⟨f, hpart, -⟩ := FloatLiteral.exists_part x
  rw [hpart, String.toList_ofList]
  exact f.isWordChar_chars

theorem isWordChar_pairChars (re im : Binary64) : ∀ c ∈ pairChars re im, isWordChar c = true := by
  intro c hc
  rw [pairChars, List.mem_append, List.mem_cons, List.mem_append, List.mem_singleton] at hc
  rcases hc with hc | rfl | hc | rfl
  · exact isWordChar_part re c hc
  · rw [innerSign]
    split <;> rfl
  · exact isWordChar_part im.abs c hc
  · rfl

def complexPhrase (re im : Binary64) : Phrase :=
  if re = .zero then
    wordPhrase ((FloatLiteral.part im).toList ++ ['j'])
      ((exists_lexeme_imaginary im).imp fun _ h => h.1)
  else
    .group .none .paren (.word ⟨pairChars re im, isWordChar_pairChars re im⟩
      (List.append_ne_nil_of_right_ne_nil _ (List.cons_ne_nil _ _))) (.close .paren)

def rangePhrase (start stop step : Int64) : Phrase :=
  .group .range .paren (intPhrase start.toInt)
    (.items .paren ((stop :: if step = 1 then [] else [step]).map fun n => intPhrase n.toInt))

def typePhrase (ty : BuiltinType) : Phrase :=
  .group .none .angle
    (.word ⟨['c', 'l', 'a', 's', 's'], List.all_eq_true.1 rfl⟩ (List.cons_ne_nil _ _))
    (.next .blank (.text ty.name) (.close .angle))

mutual

/-- The phrase that the literal of an object is. -/
def phrase : Object → Phrase
  | none => wordPhrase Constant.none.chars ⟨.constant .none, rfl⟩
  | ellipsis => wordPhrase Constant.ellipsis.chars ⟨.constant .ellipsis, rfl⟩
  | bool true => wordPhrase Constant.true.chars ⟨.constant .true, rfl⟩
  | bool false => wordPhrase Constant.false.chars ⟨.constant .false, rfl⟩
  | int n => intPhrase n.toInt
  | bigInt n => intPhrase n
  | float x =>
    wordPhrase (FloatLiteral.text x).toList ((exists_lexeme_float x).imp fun _ h => h.1)
  | complex re im => complexPhrase re im
  | str text => .text text
  | bytes data => .bytes data
  | list items => .items .bracket .bracket (phrases items)
  | tuple items => .items .paren (if items.length = 1 then .commaParen else .paren) (phrases items)
  | dict entries => .entries (entryPhrases entries)
  | set [] => .empty .set .paren .paren
  | set elements => .items .brace .brace (phrases elements)
  | range start stop step => rangePhrase start stop step
  | slice start stop step =>
    .group .slice .paren (phrase start) (.items .paren [phrase stop, phrase step])
  | type ty => typePhrase ty
  | standIn text => .text text

def phrases : List Object → List Phrase
  | [] => []
  | o :: rest => phrase o :: phrases rest

def entryPhrases : List (Object × Object) → List (Phrase × Phrase)
  | [] => []
  | (k, v) :: rest => (phrase k, phrase v) :: entryPhrases rest

end

theorem commaSeparated_toList (texts : List String) :
    (commaSeparated texts).toList = [',', ' '].intercalate (texts.map String.toList) := by
  rw [commaSeparated, String.toList_intercalate]
  rfl

theorem complexText_toList (re im : Binary64) :
    (FloatLiteral.complexText re im).toList = (complexPhrase re im).chars := by
  rw [FloatLiteral.complexText, complexPhrase]
  split
  · rw [String.toList_append]
    rfl
  · have hsign : (if (im.isNegative && !im.isNaN) = true then "-" else "+").toList =
        [innerSign im] := by
      rw [innerSign]
      split <;> rfl
    simp only [String.toList_append, hsign]
    simp [Phrase.chars, Rest.chars, pairChars, GroupName.chars, Opener.char, Closer.chars]

theorem rangeLiteral_toList (start stop step : Int64) :
    (rangeLiteral start stop step).toList = (rangePhrase start stop step).chars := by
  have hparts (ns : List Int64) : (ns.map fun n => Decimal.text n.toInt).map String.toList =
      (ns.map fun n => intPhrase n.toInt).map Phrase.chars := by
    rw [List.map_map, List.map_map]
    rfl
  rw [rangePhrase, Phrase.chars, Rest.chars_items, rangeLiteral, String.toList_append,
    String.toList_append, commaSeparated_toList, hparts]
  rfl

theorem typeLiteral_toList (ty : BuiltinType) :
    ("<class '" ++ ty.name ++ "'>").toList = (typePhrase ty).chars := by
  cases ty <;> decide

mutual

/-- The literal of an object is its phrase. -/
theorem literal_toList : ∀ o : Object, o.Plain → o.literal.toList = o.phrase.chars
  | none, _ => rfl
  | ellipsis, _ => rfl
  | bool true, _ => rfl
  | bool false, _ => rfl
  | int n, _ => rfl
  | bigInt n, _ => rfl
  | float x, _ => rfl
  | complex re im, _ => by rw [literal, phrase, complexText_toList]
  | str text, _ => by rw [literal, phrase, Phrase.chars, Quoted.text_toList]
  | bytes data, _ => by rw [literal, phrase, Phrase.chars, Quoted.bytes_toList]
  | list items, h => by
    rw [Plain] at h
    rw [literal, phrase, Phrase.chars_items, ← literals_toList items h, ← commaSeparated_toList,
      String.toList_append, String.toList_append]
    rfl
  | tuple items, h => by
    rw [Plain] at h
    have hcloser : (if items.length = 1 then ",)" else ")").toList =
        (if items.length = 1 then Closer.commaParen else .paren).chars := by
      split <;> rfl
    rw [literal, phrase, Phrase.chars_items, ← literals_toList items h, ← commaSeparated_toList,
      String.toList_append, String.toList_append, hcloser]
    rfl
  | dict entries, h => by
    rw [Plain] at h
    rw [literal, phrase, Phrase.chars_entries, ← entryLiterals_toList entries h,
      ← commaSeparated_toList, String.toList_append, String.toList_append]
    rfl
  | set [], _ => rfl
  | set (e :: elements), h => by
    rw [Plain] at h
    rw [literal, phrase, Phrase.chars_items, ← literals_toList _ h, ← commaSeparated_toList,
      String.toList_append, String.toList_append]
    · rfl
    · exact fun h => (nomatch h)
    · exact fun h => (nomatch h)
  | range start stop step, _ => by rw [literal, phrase, rangeLiteral_toList]
  | slice start stop step, h => by
    rw [Plain] at h
    obtain ⟨hstart, hstop, hstep⟩ := h
    rw [literal, phrase, Phrase.chars, Rest.chars_items, String.toList_append,
      String.toList_append, commaSeparated_toList]
    simp only [List.map_cons, List.map_nil, literal_toList start hstart,
      literal_toList stop hstop, literal_toList step hstep]
    rfl
  | type ty, _ => by rw [literal, phrase, typeLiteral_toList]
  | standIn _, h => absurd h (by rw [Plain]; exact id)

theorem literals_toList : ∀ items : List Object, PlainItems items →
    (literals items).map String.toList = (phrases items).map Phrase.chars
  | [], _ => rfl
  | o :: rest, h => by
    rw [PlainItems] at h
    rw [literals, phrases, List.map_cons, List.map_cons, literal_toList o h.1,
      literals_toList rest h.2]

theorem entryLiterals_toList : ∀ entries : List (Object × Object), PlainEntries entries →
    (entryLiterals entries).map String.toList = (entryPhrases entries).map entryChars
  | [], _ => rfl
  | (k, v) :: rest, h => by
    rw [PlainEntries] at h
    rw [entryLiterals, entryPhrases, List.map_cons, List.map_cons, entryLiterals_toList rest h.2.2,
      String.toList_append, String.toList_append, literal_toList k h.1, literal_toList v h.2.1,
      entryChars, List.append_assoc]
    rfl

end

/-! ## Reading objects back -/

end Object

/-- What a phrase is, with the name and the opener of a group. -/
inductive Shape
  | word
  | text
  | bytes
  | group (name : GroupName) (opener : Opener)

def Phrase.shape : Phrase → Shape
  | .word .. => .word
  | .text _ => .text
  | .bytes _ => .bytes
  | .empty name opener _ => .group name opener
  | .group name opener .. => .group name opener

theorem Phrase.shape_items (o : Opener) (k : Closer) (ps : List Phrase) :
    (Phrase.items o k ps).shape = .group .none o := by
  cases ps <;> rfl

theorem Phrase.shape_entries (es : List (Phrase × Phrase)) :
    (Phrase.entries es).shape = .group .none .brace := by
  match es with
  | [] | (_, _) :: _ => rfl

namespace Object

theorem wordPhrase_inj {chars chars' : List Char} {h : ∃ l : Lexeme, chars = l.chars}
    {h' : ∃ l : Lexeme, chars' = l.chars} :
    wordPhrase chars h = wordPhrase chars' h' ↔ chars = chars' := by
  constructor
  · intro heq
    exact congrArg Word.chars (Phrase.word.inj heq)
  · rintro rfl
    rfl

/-- The objects whose phrases have a shape. -/
def Admitted : Shape → Object → Prop
  | .word, o => ∃ l : Lexeme, o.Spoken l ∧ ∃ h, o.phrase = wordPhrase l.chars h
  | .text, o => (∃ s, o = str s) ∨ ∃ s, o = standIn s
  | .bytes, o => ∃ data, o = bytes data
  | .group .none .bracket, o => ∃ items, o = list items
  | .group .none .paren, o =>
    (∃ items, o = tuple items) ∨ ∃ re im, re ≠ .zero ∧ o = complex re im
  | .group .none .brace, o => (∃ entries, o = dict entries) ∨ ∃ e es, o = set (e :: es)
  | .group .none .angle, o => ∃ ty, o = type ty
  | .group .set _, o => o = set []
  | .group .range _, o => ∃ start stop step, o = range start stop step
  | .group .slice _, o => ∃ start stop step, o = slice start stop step

theorem intPhrase_eq (n : Int) :
    intPhrase n = wordPhrase (Lexeme.figure (.numeral (.ofInt n))).chars ⟨_, rfl⟩ :=
  wordPhrase_inj.2 (Numeral.text_eq n)

theorem admitted_imaginary (im : Binary64) : Admitted .word (complex .zero im) := by
  obtain ⟨l, hl, hx⟩ := exists_lexeme_imaginary im
  refine ⟨l, hx, ⟨l, rfl⟩, ?_⟩
  rw [phrase, complexPhrase, if_pos rfl]
  exact wordPhrase_inj.2 hl

theorem admitted (o : Object) : Admitted o.phrase.shape o := by
  match o with
  | none => exact ⟨_, .none, _, rfl⟩
  | ellipsis => exact ⟨_, .ellipsis, _, rfl⟩
  | bool true => exact ⟨_, .true, _, rfl⟩
  | bool false => exact ⟨_, .false, _, rfl⟩
  | int n => exact ⟨_, .int n, _, intPhrase_eq n.toInt⟩
  | bigInt n => exact ⟨_, .bigInt n, _, intPhrase_eq n⟩
  | float x =>
    obtain ⟨l, hl, hx⟩ := exists_lexeme_float x
    exact ⟨l, hx, ⟨l, rfl⟩, wordPhrase_inj.2 hl⟩
  | complex re im =>
    rw [phrase, complexPhrase]
    split
    · next hre =>
      subst hre
      exact admitted_imaginary im
    · next hre => exact Or.inr ⟨re, im, hre, rfl⟩
  | str s => exact Or.inl ⟨s, rfl⟩
  | bytes data => exact ⟨data, rfl⟩
  | list items =>
    rw [phrase, Phrase.shape_items]
    exact ⟨items, rfl⟩
  | tuple items =>
    rw [phrase, Phrase.shape_items]
    exact Or.inl ⟨items, rfl⟩
  | dict entries =>
    rw [phrase, Phrase.shape_entries]
    exact Or.inl ⟨entries, rfl⟩
  | set [] => exact rfl
  | set (e :: es) => exact Or.inr ⟨e, es, rfl⟩
  | range start stop step => exact ⟨start, stop, step, rfl⟩
  | slice start stop step => exact ⟨start, stop, step, rfl⟩
  | type ty => exact ⟨ty, rfl⟩
  | standIn s => exact Or.inr ⟨s, rfl⟩

theorem canonical_eq_of_word {a b : Object} (ha : Admitted .word a) (heq : a.phrase = b.phrase) :
    a.canonical = b.canonical := by
  obtain ⟨l, ha, h, hphrase⟩ := ha
  have hb := admitted b
  rw [← heq, hphrase] at hb
  obtain ⟨m, hm, hmchars, hbphrase⟩ := hb
  rw [← heq, hphrase, wordPhrase_inj] at hbphrase
  obtain rfl := Lexeme.chars_injective hbphrase
  exact ha.unique hm

theorem isNaN_abs (x : Binary64) : x.abs.isNaN = x.isNaN := by
  rw [Binary64.isNaN, Binary64.isNaN, Binary64.field_abs, Binary64.fraction_abs]

/-- A float is told by its sign and its size, if it is a number. -/
theorem withoutPayload_eq_of_abs {x y : Binary64}
    (habs : x.abs.withoutPayload = y.abs.withoutPayload) (hsign : innerSign x = innerSign y) :
    x.withoutPayload = y.withoutPayload := by
  have hboth : x.isNaN = y.isNaN := by
    rw [← isNaN_abs, ← Binary64.isNaN_withoutPayload, habs, Binary64.isNaN_withoutPayload,
      isNaN_abs]
  by_cases hx : x.isNaN = true
  · rw [Binary64.withoutPayload, Binary64.withoutPayload, if_pos hx, if_pos (hboth ▸ hx)]
  · have hy : ¬y.isNaN = true := hboth ▸ hx
    rw [Binary64.withoutPayload, Binary64.withoutPayload, isNaN_abs, isNaN_abs, if_neg hx,
      if_neg hy] at habs
    have hnegative : x.isNegative = y.isNegative := by
      rw [Bool.not_eq_true] at hx hy
      rw [innerSign, innerSign, hx, hy, Bool.not_false, Bool.and_true, Bool.and_true] at hsign
      revert hsign
      cases x.isNegative <;> cases y.isNegative <;> decide
    rw [Binary64.eq_of_place_abs hnegative (congrArg _ habs)]

theorem pairChars_inj {re im re' im' : Binary64} (h : pairChars re im = pairChars re' im') :
    re.withoutPayload = re'.withoutPayload ∧ im.withoutPayload = im'.withoutPayload := by
  obtain ⟨f, hf, hre⟩ := FloatLiteral.exists_part re
  obtain ⟨f', hf', hre'⟩ := FloatLiteral.exists_part re'
  obtain ⟨g, hg, him⟩ := FloatLiteral.exists_part im.abs
  obtain ⟨g', hg', him'⟩ := FloatLiteral.exists_part im'.abs
  have hsign (x : Binary64) (l : List Char) : Numeral.Ends (innerSign x :: l) := by
    refine Numeral.ends_cons l ?_
    rw [innerSign]
    split <;> rfl
  have hj : Numeral.Ends ['j'] := Numeral.ends_cons _ rfl
  simp only [pairChars, hf, hf', hg, hg', String.toList_ofList] at h
  obtain ⟨rfl, hrest⟩ := Figure.append_inj (hsign _ _) (hsign _ _) h
  obtain ⟨hinner, himaginary⟩ := List.cons.inj hrest
  obtain ⟨rfl, -⟩ := Figure.append_inj hj hj himaginary
  exact ⟨hre.unique hre', withoutPayload_eq_of_abs (him.unique him') hinner⟩

theorem complexPhrase_of_ne {re : Binary64} (im : Binary64) (hre : re ≠ .zero) :
    complexPhrase re im = .group .none .paren (.word ⟨pairChars re im, isWordChar_pairChars re im⟩
      (List.append_ne_nil_of_right_ne_nil _ (List.cons_ne_nil _ _))) (.close .paren) :=
  if_neg hre

theorem intPhrase_injective {m n : Int} (h : intPhrase m = intPhrase n) : m = n := by
  rw [intPhrase_eq, intPhrase_eq, wordPhrase_inj] at h
  have hfigure := Lexeme.figure.inj (Lexeme.chars_injective h)
  exact Numeral.ofInt_injective (Figure.numeral.inj hfigure)

theorem rangePhrase_inj {start stop step start' stop' step' : Int64}
    (h : rangePhrase start stop step = rangePhrase start' stop' step') :
    start = start' ∧ stop = stop' ∧ step = step' := by
  have hint {m n : Int64} (h : intPhrase m.toInt = intPhrase n.toInt) : m = n :=
    Int64.toInt_inj.1 (intPhrase_injective h)
  obtain ⟨-, -, hstart, hrest⟩ := Phrase.group.inj h
  have hlist := (List.map_inj_right fun m n hmn => hint hmn).1 (Rest.items_inj hrest).2
  obtain ⟨hstop, hstep⟩ := List.cons.inj hlist
  refine ⟨hint hstart, hstop, ?_⟩
  split at hstep <;> split at hstep
  · next hone hone' => exact hone.trans hone'.symm
  · cases hstep
  · cases hstep
  · exact (List.cons.inj hstep).1

theorem typePhrase_inj {ty ty' : BuiltinType} (h : typePhrase ty = typePhrase ty') : ty = ty' := by
  obtain ⟨-, -, -, hrest⟩ := Phrase.group.inj h
  exact BuiltinType.name_inj (Phrase.text.inj (Rest.next.inj hrest).2.1)

theorem length_phrases (items : List Object) : (phrases items).length = items.length := by
  induction items with
  | nil => rfl
  | cons o rest ih => rw [phrases, List.length_cons, List.length_cons, ih]

/-- A tuple is no pair of parts: a single item has a comma behind it. -/
theorem tuple_ne_pair (items : List Object) (p : Phrase) :
    Phrase.items .paren (if items.length = 1 then .commaParen else .paren) (phrases items) ≠
      .group .none .paren p (.close .paren) := by
  intro h
  have hpair : Phrase.group .none .paren p (.close .paren) = .items .paren .paren [p] := rfl
  obtain ⟨hcloser, hone⟩ := Phrase.items_inj (h.trans hpair)
  rw [if_pos (by rw [← length_phrases, hone]; rfl)] at hcloser
  cases hcloser

mutual

/-- A phrase gives back its object, except for what literals do not show. -/
theorem canonical_eq_of_phrase : ∀ a b : Object, a.Plain → b.Plain → a.phrase = b.phrase →
    a.canonical = b.canonical
  | none, b, _, _, h => canonical_eq_of_word (admitted none) h
  | ellipsis, b, _, _, h => canonical_eq_of_word (admitted ellipsis) h
  | bool true, b, _, _, h => canonical_eq_of_word (admitted (bool true)) h
  | bool false, b, _, _, h => canonical_eq_of_word (admitted (bool false)) h
  | int n, b, _, _, h => canonical_eq_of_word (admitted (int n)) h
  | bigInt n, b, _, _, h => canonical_eq_of_word (admitted (bigInt n)) h
  | float x, b, _, _, h => canonical_eq_of_word (admitted (float x)) h
  | complex re im, b, _, _, h => by
    by_cases hre : re = .zero
    · subst hre
      exact canonical_eq_of_word (admitted_imaginary im) h
    · have hb := admitted b
      rw [← h, phrase, complexPhrase_of_ne im hre] at hb
      rw [phrase, complexPhrase_of_ne im hre] at h
      rcases hb with ⟨items, rfl⟩ | ⟨re', im', hre', rfl⟩
      · exact absurd h.symm (tuple_ne_pair items _)
      · rw [phrase, complexPhrase_of_ne im' hre'] at h
        obtain ⟨-, -, hword, -⟩ := Phrase.group.inj h
        obtain ⟨hreal, himaginary⟩ := pairChars_inj (Word.mk.inj (Phrase.word.inj hword))
        rw [canonical, canonical, hreal, himaginary]
  | str s, b, _, hplain, h => by
    have hb := admitted b
    rw [← h] at hb
    rcases hb with ⟨t, rfl⟩ | ⟨t, rfl⟩
    · rw [Phrase.text.inj h]
    · exact absurd hplain (by rw [Plain]; exact id)
  | bytes data, b, _, _, h => by
    have hb := admitted b
    rw [← h] at hb
    obtain ⟨data', rfl⟩ := hb
    rw [Phrase.bytes.inj h]
  | list items, b, ha, hplain, h => by
    have hb := admitted b
    rw [← h, phrase, Phrase.shape_items] at hb
    obtain ⟨items', rfl⟩ := hb
    rw [Plain] at ha hplain
    have hitems := (Phrase.items_inj h).2
    rw [canonical, canonical, canonicalItems_eq items items' ha hplain hitems]
  | tuple items, b, ha, hplain, h => by
    have hb := admitted b
    rw [← h, phrase, Phrase.shape_items] at hb
    rcases hb with ⟨items', rfl⟩ | ⟨re, im, hre, rfl⟩
    · rw [Plain] at ha hplain
      have hitems := (Phrase.items_inj h).2
      rw [canonical, canonical, canonicalItems_eq items items' ha hplain hitems]
    · exact absurd (h.trans (complexPhrase_of_ne im hre)) (tuple_ne_pair items _)
  | dict entries, b, ha, hplain, h => by
    have hb := admitted b
    rw [← h, phrase, Phrase.shape_entries] at hb
    rcases hb with ⟨entries', rfl⟩ | ⟨e, es, rfl⟩
    · rw [Plain] at ha hplain
      have hentries := Phrase.entries_inj h
      rw [canonical, canonical, canonicalEntries_eq entries entries' ha hplain hentries]
    · exact absurd h (Phrase.entries_ne_items (List.cons_ne_nil _ _))
  | set [], b, _, _, h => by
    have hb := admitted b
    rw [← h] at hb
    rw [show b = set [] from hb]
  | set (e :: es), b, ha, hplain, h => by
    have hb := admitted b
    rw [← h, phrase, Phrase.shape_items] at hb
    · rcases hb with ⟨entries, rfl⟩ | ⟨e', es', rfl⟩
      · exact absurd h.symm (Phrase.entries_ne_items (List.cons_ne_nil _ _))
      · rw [Plain] at ha hplain
        have hitems := (Phrase.items_inj h).2
        rw [canonical, canonical, canonicalItems_eq (e :: es) (e' :: es') ha hplain hitems]
    · exact fun h => (nomatch h)
  | range start stop step, b, _, _, h => by
    have hb := admitted b
    rw [← h] at hb
    obtain ⟨start', stop', step', rfl⟩ := hb
    obtain ⟨rfl, rfl, rfl⟩ := rangePhrase_inj h
    rfl
  | slice start stop step, b, ha, hplain, h => by
    have hb := admitted b
    rw [← h] at hb
    obtain ⟨start', stop', step', rfl⟩ := hb
    rw [Plain] at ha hplain
    obtain ⟨hstart, hstop, hstep⟩ := ha
    obtain ⟨hstart', hstop', hstep'⟩ := hplain
    obtain ⟨-, -, hfirst, hrest⟩ := Phrase.group.inj h
    obtain ⟨hsecond, hthird⟩ := List.cons.inj (Rest.items_inj hrest).2
    rw [canonical, canonical, canonical_eq_of_phrase start start' hstart hstart' hfirst,
      canonical_eq_of_phrase stop stop' hstop hstop' hsecond,
      canonical_eq_of_phrase step step' hstep hstep' (List.cons.inj hthird).1]
  | type ty, b, _, _, h => by
    have hb := admitted b
    rw [← h] at hb
    obtain ⟨ty', rfl⟩ := hb
    rw [typePhrase_inj h]
  | standIn _, _, ha, _, _ => absurd ha (by rw [Plain]; exact id)

theorem canonicalItems_eq : ∀ items items' : List Object, PlainItems items → PlainItems items' →
    phrases items = phrases items' → canonicalItems items = canonicalItems items'
  | [], [], _, _, _ => rfl
  | [], _ :: _, _, _, h => nomatch h
  | _ :: _, [], _, _, h => nomatch h
  | o :: rest, o' :: rest', ha, hb, h => by
    rw [PlainItems] at ha hb
    obtain ⟨hfirst, hrest⟩ := List.cons.inj h
    rw [canonicalItems, canonicalItems, canonical_eq_of_phrase o o' ha.1 hb.1 hfirst,
      canonicalItems_eq rest rest' ha.2 hb.2 hrest]

theorem canonicalEntries_eq : ∀ entries entries' : List (Object × Object), PlainEntries entries →
    PlainEntries entries' → entryPhrases entries = entryPhrases entries' →
    canonicalEntries entries = canonicalEntries entries'
  | [], [], _, _, _ => rfl
  | [], (_, _) :: _, _, _, h => nomatch h
  | (_, _) :: _, [], _, _, h => nomatch h
  | (k, v) :: rest, (k', v') :: rest', ha, hb, h => by
    rw [PlainEntries] at ha hb
    obtain ⟨hentry, hrest⟩ := List.cons.inj h
    obtain ⟨hkey, hvalue⟩ := Prod.mk.inj hentry
    rw [canonicalEntries, canonicalEntries, canonical_eq_of_phrase k k' ha.1 hb.1 hkey,
      canonical_eq_of_phrase v v' ha.2.1 hb.2.1 hvalue,
      canonicalEntries_eq rest rest' ha.2.2 hb.2.2 hrest]

end

/-! ## What literals do not show -/

theorem text_eq_of_isNaN {x : Binary64} (hx : x.isNaN = true) : FloatLiteral.text x = "nan" := by
  rw [FloatLiteral.text, if_pos hx]

theorem part_eq_of_isNaN {x : Binary64} (hx : x.isNaN = true) : FloatLiteral.part x = "nan" := by
  rw [FloatLiteral.part, text_eq_of_isNaN hx]
  rfl

/-- What is the same for every NaN is the same without the payload. -/
theorem eq_withoutPayload {α : Type} (f : Binary64 → α) (x : Binary64)
    (hf : ∀ y z : Binary64, y.isNaN = true → z.isNaN = true → f y = f z) :
    f x.withoutPayload = f x := by
  by_cases hx : x.isNaN = true
  · exact hf _ _ (by rw [Binary64.isNaN_withoutPayload, hx]) hx
  · rw [Binary64.withoutPayload, if_neg hx]

theorem text_withoutPayload (x : Binary64) :
    FloatLiteral.text x.withoutPayload = FloatLiteral.text x :=
  eq_withoutPayload _ x fun y z hy hz => by rw [text_eq_of_isNaN hy, text_eq_of_isNaN hz]

theorem complexText_withoutPayload (re im : Binary64) :
    FloatLiteral.complexText re.withoutPayload im.withoutPayload =
      FloatLiteral.complexText re im := by
  have hzero {x : Binary64} (hx : x.isNaN = true) : x ≠ .zero := by
    rintro rfl
    exact absurd hx (by decide)
  have hreal := eq_withoutPayload (FloatLiteral.complexText · im.withoutPayload) re
    fun y z hy hz => by
      simp only [FloatLiteral.complexText, if_neg (hzero hy), if_neg (hzero hz),
        part_eq_of_isNaN hy, part_eq_of_isNaN hz]
  have himaginary := eq_withoutPayload (FloatLiteral.complexText re) im fun y z hy hz => by
    rw [← isNaN_abs] at hy hz
    simp only [FloatLiteral.complexText, part_eq_of_isNaN hy, part_eq_of_isNaN hz]
    simp only [isNaN_abs] at hy hz
    simp only [hy, hz, part_eq_of_isNaN, Bool.not_true, Bool.and_false]
  exact hreal.trans himaginary

theorem length_canonicalItems (items : List Object) :
    (canonicalItems items).length = items.length := by
  induction items with
  | nil => rfl
  | cons o rest ih => rw [canonicalItems, List.length_cons, List.length_cons, ih]

mutual

/-- A literal does not show which of the objects with one canonical form it is of. -/
theorem literal_canonical : ∀ o : Object, o.canonical.literal = o.literal
  | none | ellipsis | bool _ | int _ | bigInt _ | str _ | bytes _ | range .. | type _ | standIn _ =>
    rfl
  | float x => text_withoutPayload x
  | complex re im => complexText_withoutPayload re im
  | list items => by rw [canonical, literal, literal, literals_canonical]
  | tuple items => by
    rw [canonical, literal, literal, literals_canonical, length_canonicalItems]
  | dict entries => by rw [canonical, literal, literal, entryLiterals_canonical]
  | set [] => rfl
  | set (e :: es) => by
    rw [canonical, canonicalItems, literal, literal, ← canonicalItems, literals_canonical] <;>
      exact fun h => (nomatch h)
  | slice start stop step => by
    rw [canonical, literal, literal, literal_canonical start, literal_canonical stop,
      literal_canonical step]

theorem literals_canonical : ∀ items : List Object,
    literals (canonicalItems items) = literals items
  | [] => rfl
  | o :: rest => by
    rw [canonicalItems, literals, literals, literal_canonical o, literals_canonical rest]

theorem entryLiterals_canonical : ∀ entries : List (Object × Object),
    entryLiterals (canonicalEntries entries) = entryLiterals entries
  | [] => rfl
  | (k, v) :: rest => by
    rw [canonicalEntries, entryLiterals, entryLiterals, literal_canonical k, literal_canonical v,
      entryLiterals_canonical rest]

end

/-- **Two objects without stand-ins have one literal exactly when they are the same but for how
their integers are kept and which NaNs their NaNs are.** -/
theorem literal_eq_iff {a b : Object} (ha : a.Plain) (hb : b.Plain) :
    a.literal = b.literal ↔ a.canonical = b.canonical := by
  constructor
  · intro h
    have hchars : a.phrase.chars ++ [] = b.phrase.chars ++ [] := by
      rw [← literal_toList a ha, ← literal_toList b hb, h]
    have hends : Phrase.Ends [] := fun _ hc => (nomatch hc)
    have hphrase := (Phrase.append_inj a.phrase b.phrase hends hends hchars).1
    exact canonical_eq_of_phrase a b ha hb hphrase
  · intro h
    rw [← literal_canonical a, h, literal_canonical b]

/-- A list of the integer one, kept in either way. -/
theorem literal_eq_iff_ones :
    (list [int 1]).Plain ∧ (list [bigInt 1]).Plain ∧
      (list [int 1]).literal = (list [bigInt 1]).literal := by
  have hint : (list [int 1]).Plain := by simp [Plain, PlainItems]
  have hbig : (list [bigInt 1]).Plain := by simp [Plain, PlainItems]
  exact ⟨hint, hbig, (literal_eq_iff hint hbig).2 rfl⟩

end Object

end ValueHeap
