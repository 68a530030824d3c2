/-!
# Text and bytes as quoted literals

## What is here

* `Quoted.text` — a text between quotes.  The quotes are single unless the text has a single quote
  and no double one.  A backslash, a line feed, a carriage return, a tab and the quote in use are
  escaped; every other character stands for itself.
* `Quoted.bytes` — a byte string between single quotes behind a `b`.  A byte outside the printable
  ASCII range that has no escape of its own is written as two hexadecimal digits.
-/

set_option autoImplicit false

namespace ValueHeap.Quoted

/-- The quote around a text. -/
def quoteOf (chars : List Char) : Char :=
  if chars.contains '\'' && !chars.contains '"' then '"' else '\''

/-- A character of a text between quotes. -/
def escapeChar (quote c : Char) : List Char :=
  if c = '\\' then ['\\', '\\']
  else if c = '\n' then ['\\', 'n']
  else if c = '\r' then ['\\', 'r']
  else if c = '\t' then ['\\', 't']
  else if c = quote then ['\\', c]
  else [c]

/-- A text between quotes. -/
def text (s : String) : String :=
  let chars := s.toList
  let quote := quoteOf chars
  String.ofList (quote :: chars.flatMap (escapeChar quote) ++ [quote])

/-- A hexadecimal digit. -/
def hexDigit (n : Nat) : Char :=
  if n < 10 then Char.ofNat ('0'.toNat + n) else Char.ofNat ('a'.toNat + (n - 10))

/-- The two hexadecimal digits of a byte. -/
def hexByte (b : UInt8) : List Char :=
  [hexDigit (b.toNat / 16), hexDigit (b.toNat % 16)]

/-- A byte of a byte string between quotes. -/
def escapeByte (b : UInt8) : List Char :=
  if b = 0x5c then ['\\', '\\']
  else if b = 0x27 then ['\\', '\'']
  else if b = 0x0a then ['\\', 'n']
  else if b = 0x0d then ['\\', 'r']
  else if b = 0x09 then ['\\', 't']
  else if 0x20 ≤ b ∧ b ≤ 0x7e then [Char.ofNat b.toNat]
  else '\\' :: 'x' :: hexByte b

/-- A byte string between quotes. -/
def bytes (data : List UInt8) : String :=
  String.ofList ('b' :: '\'' :: data.flatMap escapeByte ++ ['\''])

end ValueHeap.Quoted
