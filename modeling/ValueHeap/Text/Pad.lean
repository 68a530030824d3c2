/-!
# Padding to a width

A text shorter than a column is filled with blanks on one side; a longer one is left as it is.
The width of a text is its number of characters.
-/

set_option autoImplicit false

namespace ValueHeap.Text

/-- The blanks missing from `text` up to `width`. -/
def blanks (width : Nat) (text : String) : String :=
  String.ofList (List.replicate (width - text.length) ' ')

/-- The text at the left edge of a column. -/
def padRight (width : Nat) (text : String) : String :=
  text ++ blanks width text

/-- The text at the right edge of a column. -/
def padLeft (width : Nat) (text : String) : String :=
  blanks width text ++ text

end ValueHeap.Text
