import ValueHeap.Numeric.Shortest

/-!
# Floats and complex numbers as text

The shortest digits of a float are printed in one of two layouts: positionally while the power of
ten of the first digit is neither below `-5` nor above `15`, and otherwise with that power behind an
`e`.  A positional number always has a point with a digit after it; a power is printed as it is.

The text of the float is then spelled from what was printed: a power gets a sign and at least two
digits, and the number in front of it is left without a `.0`.

## What is here

* `FloatLiteral.positional` and `FloatLiteral.scientific` — the two layouts of a list of digits.
* `FloatLiteral.printed` — a finite float in one of them.
* `FloatLiteral.spelled` — the same with its power spelled out.
* `FloatLiteral.text` — a float.
* `FloatLiteral.part` and `FloatLiteral.complexText` — a part of a complex number, which drops a
  `.0`, and a complex number, which drops a real part of positive zero.
-/

set_option autoImplicit false

namespace ValueHeap.FloatLiteral

/-! ## Printing digits -/

/-- Digits with a point after the one for units; zeros fill the gap between them and the point. -/
def positional (digits : List Char) (exponent : Int) : List Char :=
  match exponent with
  | .ofNat e =>
    let whole := digits.take (e + 1) ++ List.replicate (e + 1 - digits.length) '0'
    let rest := digits.drop (e + 1)
    whole ++ '.' :: (if rest.isEmpty then ['0'] else rest)
  | .negSucc e => '0' :: '.' :: List.replicate e '0' ++ digits

/-- Digits with a point after the first one, if there are more, and the power of ten behind. -/
def scientific (digits : List Char) (exponent : Int) : List Char :=
  let mantissa := digits.take 1 ++ (if digits.length ≤ 1 then [] else '.' :: digits.drop 1)
  let sign := if exponent < 0 then ['-'] else []
  mantissa ++ 'e' :: sign ++ Nat.toDigits 10 exponent.natAbs

/-- Whether a float is printed positionally, by the power of ten of its first digit. -/
def isPositional (exponent : Int) : Bool :=
  decide (-5 ≤ exponent) && decide (exponent ≤ 15)

/-- The minus sign of a negative float. -/
def sign (x : Binary64) : List Char :=
  if x.isNegative then ['-'] else []

/-- What is printed for a finite float. -/
def printed (x : Binary64) : List Char :=
  if x.significand = 0 then sign x ++ ['0', '.', '0']
  else
    let (digits, exponent) := Shortest.digits x
    sign x ++
      if isPositional exponent then positional digits exponent else scientific digits exponent

/-! ## Spelling what was printed -/

/-- A text without a `.0` at its end. -/
def dropPointZero (text : List Char) : List Char :=
  if ['.', '0'] <:+ text then text.take (text.length - 2) else text

/-- Digits with zeros in front of them if there are not two. -/
def twoDigits (digits : List Char) : List Char :=
  List.replicate (2 - digits.length) '0' ++ digits

/-- A power of ten with a sign and at least two digits. -/
def spelledPower : List Char → List Char
  | '-' :: digits => '-' :: twoDigits digits
  | digits => '+' :: twoDigits digits

/-- What was printed, with the power spelled out if it has one. -/
def spelled (printed : List Char) : List Char :=
  match printed.dropWhile (· != 'e') with
  | [] => printed
  | _ :: power => dropPointZero (printed.takeWhile (· != 'e')) ++ 'e' :: spelledPower power

/-- The text of a float.  A NaN has no sign in it. -/
def text (x : Binary64) : String :=
  if x.isNaN then "nan"
  else if x.isInfinite then if x.isNegative then "-inf" else "inf"
  else String.ofList (spelled (printed x))

/-! ## Complex numbers -/

/-- The text of a part of a complex number: that of the float, without a `.0` at its end. -/
def part (x : Binary64) : String :=
  String.ofList (dropPointZero (text x).toList)

/-- The text of a complex number.  A real part of positive zero is left out; any other is written
before the sign and the size of the imaginary part, in parentheses. -/
def complexText (re im : Binary64) : String :=
  if re = .zero then part im ++ "j"
  else
    let sign := if im.isNegative && !im.isNaN then "-" else "+"
    "(" ++ part re ++ sign ++ part im.abs ++ "j)"

end ValueHeap.FloatLiteral
