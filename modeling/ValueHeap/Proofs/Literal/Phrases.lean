import ValueHeap.Proofs.Literal.Figures
import ValueHeap.Proofs.Literal.Quotations

/-!
# The grammar of literals

Every literal is a word, a quotation or a group.  A group has a name, which may be empty, and
phrases between brackets with something between them.  What stands between two phrases or behind the
last one begins with a character that no phrase has at its beginning and no word has anywhere, and
nothing that stands there is the beginning of another.  So a reader who takes words as long as
possible never has a choice.

## What is here

* `Phrase` and `Rest` — the phrases, and the rest of a group behind its first phrase.
* `Phrase.append_inj` — **a phrase can be read in front of what may follow one**.
* `Phrase.items` and `Phrase.entries` — phrases, or pairs of them, with commas between them and
  brackets around them.
-/

set_option autoImplicit false

namespace ValueHeap

/-! ## Words and punctuation -/

/-- The characters of words: letters, digits, points and signs. -/
def isWordChar (c : Char) : Bool :=
  c.isAlphanum || c == '.' || c == '+' || c == '-'

/-- The characters that begin what is behind a phrase. -/
def isFollower (c : Char) : Bool :=
  [',', ':', ' ', ']', ')', '\x7d', '>'].contains c

/-- A word, which may be empty. -/
structure Word where
  chars : List Char
  isWordChar_chars : ∀ c ∈ chars, isWordChar c = true

/-- The names of groups. -/
inductive GroupName
  | none
  | set
  | range
  | slice

/-- What a group begins with, behind its name. -/
inductive Opener
  | bracket
  | paren
  | brace
  | angle

/-- What is between two phrases of a group. -/
inductive Separator
  | comma
  | colon
  | blank

/-- What a group ends with. -/
inductive Closer
  | bracket
  | paren
  | commaParen
  | brace
  | angle

def GroupName.chars : GroupName → List Char
  | none => []
  | set => ['s', 'e', 't']
  | range => ['r', 'a', 'n', 'g', 'e']
  | slice => ['s', 'l', 'i', 'c', 'e']

def Opener.char : Opener → Char
  | bracket => '['
  | paren => '('
  | brace => '\x7b'
  | angle => '<'

def Separator.chars : Separator → List Char
  | comma => [',', ' ']
  | colon => [':', ' ']
  | blank => [' ']

def Closer.chars : Closer → List Char
  | bracket => [']']
  | paren => [')']
  | commaParen => [',', ')']
  | brace => ['\x7d']
  | angle => ['>']

mutual

/-- A word, a quotation or a group. -/
inductive Phrase
  | word (w : Word) (h : w.chars ≠ [])
  | text (s : String)
  | bytes (data : List UInt8)
  | empty (name : GroupName) (opener : Opener) (closer : Closer)
  | group (name : GroupName) (opener : Opener) (first : Phrase) (rest : Rest)

/-- What is behind a phrase of a group. -/
inductive Rest
  | close (closer : Closer)
  | next (separator : Separator) (phrase : Phrase) (rest : Rest)

end

mutual

/-- The characters of a phrase. -/
def Phrase.chars : Phrase → List Char
  | .word w _ => w.chars
  | .text s => Quoted.textChars s
  | .bytes data => Quoted.bytesChars data
  | .empty name opener closer => name.chars ++ opener.char :: closer.chars
  | .group name opener first rest => name.chars ++ opener.char :: (first.chars ++ rest.chars)

def Rest.chars : Rest → List Char
  | .close closer => closer.chars
  | .next separator phrase rest => separator.chars ++ (phrase.chars ++ rest.chars)

end

/-- A text may follow a phrase. -/
def Phrase.Ends (r : List Char) : Prop := ∀ c ∈ r.head?, isFollower c = true

variable {c : Char} {r s : List Char}

/-! ## What phrases begin with -/

theorem not_isWordChar_of_isFollower (hc : isFollower c = true) : isWordChar c = false := by
  have hall : ∀ d ∈ [',', ':', ' ', ']', ')', '\x7d', '>'], (!isWordChar d) = true :=
    List.all_eq_true.1 rfl
  rw [isFollower, List.contains_iff_mem] at hc
  simpa only [Bool.not_eq_true'] using hall c hc

theorem not_isFollower_of_isWordChar (hc : isWordChar c = true) : isFollower c = false := by
  rw [Bool.eq_false_iff]
  intro h
  exact absurd hc (by rw [not_isWordChar_of_isFollower h]; decide)

theorem GroupName.isWordChar_chars (n : GroupName) : ∀ c ∈ n.chars, isWordChar c = true := by
  cases n <;> exact List.all_eq_true.1 rfl

theorem GroupName.chars_injective {n n' : GroupName} (h : n.chars = n'.chars) : n = n' := by
  revert h
  cases n <;> cases n' <;> first | exact fun _ => rfl | exact fun h => absurd h (by decide)

theorem Opener.char_spec (o : Opener) :
    isWordChar o.char = false ∧ isFollower o.char = false ∧ o.char ≠ '\'' ∧ o.char ≠ '"' := by
  cases o <;> decide

theorem Opener.char_injective {o o' : Opener} (h : o.char = o'.char) : o = o' := by
  revert h
  cases o <;> cases o' <;> first | exact fun _ => rfl | exact fun h => absurd h (by decide)

theorem Closer.exists_cons (k : Closer) : ∃ c l, k.chars = c :: l ∧ isFollower c = true := by
  cases k <;> exact ⟨_, _, rfl, rfl⟩

theorem Separator.exists_cons (t : Separator) : ∃ c l, t.chars = c :: l ∧ isFollower c = true := by
  cases t <;> exact ⟨_, _, rfl, rfl⟩

theorem Rest.exists_cons (t : Rest) : ∃ c l, t.chars = c :: l ∧ isFollower c = true := by
  match t with
  | .close k =>
    obtain ⟨c, l, h, hc⟩ := k.exists_cons
    exact ⟨c, l, by rw [Rest.chars, h], hc⟩
  | .next t p rest =>
    obtain ⟨c, l, h, hc⟩ := t.exists_cons
    exact ⟨c, l ++ (p.chars ++ rest.chars), by rw [Rest.chars, h, List.cons_append], hc⟩

theorem Rest.ends (t : Rest) (r : List Char) : Phrase.Ends (t.chars ++ r) := by
  obtain ⟨c, l, h, hc⟩ := t.exists_cons
  rw [h]
  rintro d ⟨⟩
  exact hc

namespace Phrase

/-- The word that a phrase begins with. -/
def name : Phrase → List Char
  | word w _ => w.chars
  | text _ => []
  | bytes _ => ['b']
  | empty name .. => name.chars
  | group name .. => name.chars

/-- What a phrase has behind that word. -/
def tail : Phrase → List Char
  | word .. => []
  | text s => Quoted.textChars s
  | bytes data => Quoted.enclosed '\'' (Quoted.usualEscape '\'') (Quoted.ofBytes data)
  | empty _ opener closer => opener.char :: closer.chars
  | group _ opener first rest => opener.char :: (first.chars ++ rest.chars)

theorem chars_eq (p : Phrase) : p.chars = p.name ++ p.tail := by
  match p with
  | word w _ => rw [chars, name, tail, List.append_nil]
  | text s => rw [chars, name, tail, List.nil_append]
  | bytes data => rfl
  | empty .. => rw [chars, name, tail]
  | group .. => rw [chars, name, tail]

theorem isWordChar_name (p : Phrase) : ∀ c ∈ p.name, isWordChar c = true := by
  match p with
  | word w _ => exact w.isWordChar_chars
  | empty n .. | group n .. => exact n.isWordChar_chars
  | text _ => exact fun _ h => (nomatch h)
  | bytes _ => exact fun c hc => List.mem_singleton.1 hc ▸ rfl

/-- Behind its word a phrase ends, or it has a quote, or the opener of a group. -/
theorem tail_cases (p : Phrase) :
    (p.tail = [] ∧ p.name ≠ []) ∨
      ∃ c l, p.tail = c :: l ∧ isWordChar c = false ∧ isFollower c = false := by
  match p with
  | word w h => exact Or.inl ⟨rfl, h⟩
  | text s =>
    refine Or.inr ⟨_, _, rfl, ?_⟩
    rcases Quoted.usualQuote_eq_or s.toList with h | h <;> rw [h] <;> decide
  | bytes data => exact Or.inr ⟨_, _, rfl, by decide, by decide⟩
  | empty _ o _ | group _ o _ _ => exact Or.inr ⟨_, _, rfl, o.char_spec.1, o.char_spec.2.1⟩

theorem stops_tail (p : Phrase) (hr : Ends r) : Stops isWordChar (p.tail ++ r) := by
  rcases p.tail_cases with ⟨h, -⟩ | ⟨c, l, h, hc, -⟩
  · rw [h]
    exact fun c hc => not_isWordChar_of_isFollower (hr c hc)
  · rw [h]
    rintro d ⟨⟩
    exact hc

/-- A phrase does not begin as what is behind one does. -/
theorem exists_cons (p : Phrase) : ∃ c l, p.chars = c :: l ∧ isFollower c = false := by
  rw [chars_eq]
  match hname : p.name with
  | c :: w =>
    exact ⟨c, _, List.cons_append, not_isFollower_of_isWordChar
      (p.isWordChar_name c (by rw [hname]; exact List.mem_cons_self))⟩
  | [] =>
    rcases p.tail_cases with ⟨-, h⟩ | ⟨c, l, h, -, hc⟩
    · exact absurd hname h
    · exact ⟨c, l, h, hc⟩

/-- Words at the beginning of phrases are read alike. -/
theorem name_append_inj {p q : Phrase} (hr : Ends r) (hs : Ends s)
    (h : p.chars ++ r = q.chars ++ s) : p.name = q.name ∧ p.tail ++ r = q.tail ++ s := by
  rw [chars_eq, chars_eq, List.append_assoc, List.append_assoc] at h
  exact append_inj_of_stops p.isWordChar_name q.isWordChar_name (p.stops_tail hr)
    (q.stops_tail hs) h

/-- A word is not read as anything else. -/
theorem tail_ne_nil {q : Phrase} (hr : Ends r) (hq : q.tail ≠ []) : r ≠ q.tail ++ s := by
  rintro rfl
  rcases q.tail_cases with ⟨h, -⟩ | ⟨c, l, h, -, hc⟩
  · exact hq h
  · have hfollower := hr c (by rw [h]; rfl)
    rw [hc] at hfollower
    exact Bool.false_ne_true hfollower

end Phrase

theorem Closer.append_inj {k k' : Closer} (h : k.chars ++ r = k'.chars ++ s) : k = k' ∧ r = s := by
  cases k <;> cases k' <;> simp_all [Closer.chars]

theorem Separator.append_inj {t t' : Separator} (h : t.chars ++ r = t'.chars ++ s) :
    t = t' ∧ r = s := by
  cases t <;> cases t' <;> simp_all [Separator.chars]

theorem Closer.append_ne_separator (k : Closer) (t : Separator) :
    k.chars ++ r ≠ t.chars ++ s := by
  cases k <;> cases t <;> simp [Closer.chars, Separator.chars]

theorem Closer.append_ne_phrase (k : Closer) (p : Phrase) : k.chars ++ r ≠ p.chars ++ s := by
  obtain ⟨c, l, hk, hc⟩ := k.exists_cons
  obtain ⟨d, m, hp, hd⟩ := p.exists_cons
  rw [hk, hp]
  intro h
  rw [(List.cons.inj h).1, hd] at hc
  exact Bool.false_ne_true hc

theorem Opener.cons_ne_text (o : Opener) (a : String) :
    o.char :: r ≠ Quoted.textChars a ++ s := by
  intro h
  rcases Quoted.usualQuote_eq_or a.toList with hq | hq
  · exact o.char_spec.2.2.1 ((List.cons.inj h).1.trans hq)
  · exact o.char_spec.2.2.2 ((List.cons.inj h).1.trans hq)

theorem Word.ext {v w : Word} (h : v.chars = w.chars) : v = w := by
  cases v
  cases w
  cases h
  rfl

/-! ## Reading phrases -/

namespace Phrase

/-- What a phrase is, by number. -/
def kind : Phrase → Nat
  | word .. => 0
  | text _ => 1
  | bytes _ => 2
  | empty .. => 3
  | group .. => 4

theorem tail_ne_nil_of_kind {q : Phrase} (h : 0 < q.kind) : q.tail ≠ [] := by
  cases q with
  | word => exact absurd h (Nat.lt_irrefl 0)
  | text | bytes | empty | group => exact List.cons_ne_nil _ _

theorem not_kind_lt {p q : Phrase} (hr : Ends r) (hname : p.name = q.name)
    (htail : p.tail ++ r = q.tail ++ s) : ¬p.kind < q.kind := by
  intro hlt
  cases p with
  | word v h => exact tail_ne_nil hr (tail_ne_nil_of_kind hlt) htail
  | text a =>
    cases q with
    | word | text => exact absurd hlt (by simp only [kind]; omega)
    | bytes => exact List.cons_ne_nil _ _ hname.symm
    | empty v o | group v o => exact o.cons_ne_text a htail.symm
  | bytes a =>
    cases q with
    | word | text | bytes => exact absurd hlt (by simp only [kind]; omega)
    | empty v o | group v o => exact o.char_spec.2.2.1 (List.cons.inj htail).1.symm
  | empty v o k =>
    cases q with
    | word | text | bytes | empty => exact absurd hlt (by simp only [kind]; omega)
    | group w o q t =>
      have hbody : k.chars ++ r = q.chars ++ (t.chars ++ s) := by
        rw [← List.append_assoc]
        exact (List.cons.inj htail).2
      exact k.append_ne_phrase q hbody
  | group => cases q <;> exact absurd hlt (by simp only [kind]; omega)

/-- Phrases that are read from one text begin alike. -/
theorem begin_alike {p q : Phrase} (hr : Ends r) (hs : Ends s)
    (h : p.chars ++ r = q.chars ++ s) :
    p.kind = q.kind ∧ p.name = q.name ∧ p.tail ++ r = q.tail ++ s := by
  obtain ⟨hname, htail⟩ := name_append_inj hr hs h
  have hpq := not_kind_lt hr hname htail
  have hqp := not_kind_lt hs hname.symm htail.symm
  exact ⟨by omega, hname, htail⟩

end Phrase

mutual

/-- **A phrase can be read in front of what may follow one.** -/
theorem Phrase.append_inj : ∀ (p q : Phrase) {r s : List Char}, Phrase.Ends r → Phrase.Ends s →
    p.chars ++ r = q.chars ++ s → p = q ∧ r = s
  | .word v _, q, r, s, hr, hs, h => by
    obtain ⟨hkind, hname, htail⟩ := Phrase.begin_alike hr hs h
    cases q with
    | word w _ =>
      obtain rfl := Word.ext hname
      exact ⟨rfl, htail⟩
    | _ => cases hkind
  | .text a, q, r, s, hr, hs, h => by
    obtain ⟨hkind, -, -⟩ := Phrase.begin_alike hr hs h
    cases q with
    | text b =>
      rw [Phrase.chars, Phrase.chars] at h
      obtain ⟨rfl, hrs⟩ := Quoted.text_append_inj h
      exact ⟨rfl, hrs⟩
    | _ => cases hkind
  | .bytes a, q, r, s, hr, hs, h => by
    obtain ⟨hkind, -, -⟩ := Phrase.begin_alike hr hs h
    cases q with
    | bytes b =>
      rw [Phrase.chars, Phrase.chars] at h
      obtain ⟨rfl, hrs⟩ := Quoted.bytes_append_inj h
      exact ⟨rfl, hrs⟩
    | _ => cases hkind
  | .empty v o k, q, r, s, hr, hs, h => by
    obtain ⟨hkind, hname, htail⟩ := Phrase.begin_alike hr hs h
    cases q with
    | empty w o' k' =>
      obtain rfl := GroupName.chars_injective hname
      obtain rfl := Opener.char_injective (List.cons.inj htail).1
      obtain ⟨rfl, hrs⟩ := Closer.append_inj (List.cons.inj htail).2
      exact ⟨rfl, hrs⟩
    | _ => cases hkind
  | .group v o p t, q, r, s, hr, hs, h => by
    obtain ⟨hkind, hname, htail⟩ := Phrase.begin_alike hr hs h
    cases q with
    | group w o' q u =>
      obtain rfl := GroupName.chars_injective hname
      obtain rfl := Opener.char_injective (List.cons.inj htail).1
      have hrest : p.chars ++ (t.chars ++ r) = q.chars ++ (u.chars ++ s) := by
        rw [← List.append_assoc, ← List.append_assoc]
        exact (List.cons.inj htail).2
      obtain ⟨rfl, hbehind⟩ := Phrase.append_inj p q (t.ends r) (u.ends s) hrest
      obtain ⟨rfl, hrs⟩ := Rest.append_inj t u hbehind
      exact ⟨rfl, hrs⟩
    | _ => cases hkind

theorem Rest.append_inj : ∀ (t u : Rest) {r s : List Char}, t.chars ++ r = u.chars ++ s →
    t = u ∧ r = s
  | .close k, u, r, s, h => by
    cases u with
    | close k' =>
      rw [Rest.chars, Rest.chars] at h
      obtain ⟨rfl, hrs⟩ := Closer.append_inj h
      exact ⟨rfl, hrs⟩
    | next b q u =>
      rw [Rest.chars, Rest.chars, List.append_assoc] at h
      exact absurd h (k.append_ne_separator b)
  | .next a p t, u, r, s, h => by
    cases u with
    | close k =>
      rw [Rest.chars, Rest.chars, List.append_assoc] at h
      exact absurd h.symm (k.append_ne_separator a)
    | next b q u =>
      simp only [Rest.chars, List.append_assoc] at h
      obtain ⟨rfl, hphrase⟩ := Separator.append_inj h
      obtain ⟨rfl, hbehind⟩ := Phrase.append_inj p q (t.ends r) (u.ends s) hphrase
      obtain ⟨rfl, hrs⟩ := Rest.append_inj t u hbehind
      exact ⟨rfl, hrs⟩

end

/-! ## Groups -/

/-- What is behind a phrase when more phrases follow, with commas between them. -/
def Rest.items (closer : Closer) : List Phrase → Rest
  | [] => .close closer
  | p :: rest => .next .comma p (items closer rest)

/-- Phrases between brackets. -/
def Phrase.items (opener : Opener) (closer : Closer) : List Phrase → Phrase
  | [] => .empty .none opener closer
  | p :: rest => .group .none opener p (.items closer rest)

/-- What is behind the value of an entry when more entries follow. -/
def Rest.entries : List (Phrase × Phrase) → Rest
  | [] => .close .brace
  | (k, v) :: rest => .next .comma k (.next .colon v (entries rest))

/-- Entries between braces. -/
def Phrase.entries : List (Phrase × Phrase) → Phrase
  | [] => .empty .none .brace .brace
  | (k, v) :: rest => .group .none .brace k (.next .colon v (.entries rest))

/-- The characters of an entry. -/
def entryChars (entry : Phrase × Phrase) : List Char :=
  entry.1.chars ++ (Separator.colon.chars ++ entry.2.chars)

theorem Rest.chars_items (closer : Closer) (p : Phrase) (rest : List Phrase) :
    p.chars ++ (Rest.items closer rest).chars =
      [',', ' '].intercalate ((p :: rest).map Phrase.chars) ++ closer.chars := by
  induction rest generalizing p with
  | nil => rw [Rest.items, Rest.chars, List.map_singleton, List.intercalate_singleton]
  | cons q rest ih =>
    rw [Rest.items, Rest.chars, ih q]
    simp only [List.map_cons, List.intercalate_cons_cons, List.append_assoc]
    rfl

theorem Phrase.chars_items (opener : Opener) (closer : Closer) (ps : List Phrase) :
    (Phrase.items opener closer ps).chars =
      opener.char :: ([',', ' '].intercalate (ps.map Phrase.chars) ++ closer.chars) := by
  cases ps with
  | nil => rfl
  | cons p rest => rw [← Rest.chars_items, Phrase.items, Phrase.chars]; rfl

theorem Rest.chars_entries (entry : Phrase × Phrase) (rest : List (Phrase × Phrase)) :
    entryChars entry ++ (Rest.entries rest).chars =
      [',', ' '].intercalate ((entry :: rest).map entryChars) ++ Closer.brace.chars := by
  induction rest generalizing entry with
  | nil => rw [Rest.entries, Rest.chars, List.map_singleton, List.intercalate_singleton]
  | cons next rest ih =>
    obtain ⟨k, v⟩ := next
    have hrest := ih (k, v)
    simp only [List.map_cons] at hrest
    simp only [Rest.entries, Rest.chars, List.map_cons, List.intercalate_cons_cons,
      List.append_assoc, ← hrest]
    simp only [entryChars, Separator.chars, List.append_assoc]

theorem Phrase.chars_entries (es : List (Phrase × Phrase)) :
    (Phrase.entries es).chars =
      '\x7b' :: ([',', ' '].intercalate (es.map entryChars) ++ ['\x7d']) := by
  match es with
  | [] => rfl
  | (k, v) :: rest =>
    rw [← show Closer.brace.chars = ['\x7d'] from rfl, ← Rest.chars_entries, Phrase.entries,
      Phrase.chars, Rest.chars, entryChars, List.append_assoc, List.append_assoc]
    rfl

theorem Rest.items_inj {k k' : Closer} {ps qs : List Phrase}
    (h : Rest.items k ps = Rest.items k' qs) : k = k' ∧ ps = qs := by
  induction ps generalizing qs with
  | nil =>
    cases qs with
    | nil => exact ⟨Rest.close.inj h, rfl⟩
    | cons => cases h
  | cons p ps ih =>
    cases qs with
    | nil => cases h
    | cons q qs =>
      obtain ⟨-, rfl, hrest⟩ := Rest.next.inj h
      obtain ⟨rfl, rfl⟩ := ih hrest
      exact ⟨rfl, rfl⟩

theorem Phrase.items_inj {o o' : Opener} {k k' : Closer} {ps qs : List Phrase}
    (h : Phrase.items o k ps = Phrase.items o' k' qs) : k = k' ∧ ps = qs := by
  cases ps with
  | nil =>
    cases qs with
    | nil => exact ⟨(Phrase.empty.inj h).2.2, rfl⟩
    | cons => cases h
  | cons p ps =>
    cases qs with
    | nil => cases h
    | cons q qs =>
      obtain ⟨-, -, rfl, hrest⟩ := Phrase.group.inj h
      obtain ⟨rfl, rfl⟩ := Rest.items_inj hrest
      exact ⟨rfl, rfl⟩

theorem Rest.entries_inj {es fs : List (Phrase × Phrase)} (h : Rest.entries es = Rest.entries fs) :
    es = fs := by
  induction es generalizing fs with
  | nil =>
    match fs with
    | [] => rfl
    | (k, v) :: fs => cases h
  | cons e es ih =>
    obtain ⟨k, v⟩ := e
    match fs with
    | [] => cases h
    | (k', v') :: fs =>
      obtain ⟨-, rfl, hvalue⟩ := Rest.next.inj h
      obtain ⟨-, rfl, hrest⟩ := Rest.next.inj hvalue
      rw [ih hrest]

theorem Phrase.entries_inj {es fs : List (Phrase × Phrase)}
    (h : Phrase.entries es = Phrase.entries fs) : es = fs := by
  match es, fs with
  | [], [] => rfl
  | [], (k, v) :: fs => cases h
  | (k, v) :: es, [] => cases h
  | (k, v) :: es, (k', v') :: fs =>
    obtain ⟨-, -, rfl, hvalue⟩ := Phrase.group.inj h
    obtain ⟨-, rfl, hrest⟩ := Rest.next.inj hvalue
    rw [Rest.entries_inj hrest]

/-- Entries are no items: there is a colon behind the first key. -/
theorem Phrase.entries_ne_items {es : List (Phrase × Phrase)} {ps : List Phrase} {o : Opener}
    {k : Closer} (hps : ps ≠ []) : Phrase.entries es ≠ Phrase.items o k ps := by
  intro h
  match es, ps with
  | _, [] => exact hps rfl
  | [], p :: ps => cases h
  | (k, v) :: es, [p] => cases (Phrase.group.inj h).2.2.2
  | (k, v) :: es, p :: q :: ps => cases (Phrase.group.inj h).2.2.2

end ValueHeap
