/-!
# Excerpts

A message about a faulty piece of text shows only the start of it: the first
line, at most forty characters, without the blanks around the text. Every
character that ends a line is also a blank (`isBlank_of_isLineBreak`), so the
excerpt of a text with anything to show is never empty.
-/

namespace RubySmells.Text

/-! ## Character classes -/

/-- The code points that are trimmed off both ends of a text: the controls
that move the cursor or separate records, and the separators and spaces of
all scripts. The zero-width space and the byte order mark are not among
them. -/
def isBlank (c : Char) : Bool :=
  let n := c.toNat
  (0x09 ≤ n && n ≤ 0x0D) || (0x1C ≤ n && n ≤ 0x20) || n == 0x85 || n == 0xA0 ||
    n == 0x1680 || (0x2000 ≤ n && n ≤ 0x200A) || n == 0x2028 || n == 0x2029 ||
    n == 0x202F || n == 0x205F || n == 0x3000

/-- The code points that end a line. Unlike the other three separators of
information, U+001F does not. -/
def isLineBreak (c : Char) : Bool :=
  let n := c.toNat
  (0x0A ≤ n && n ≤ 0x0D) || (0x1C ≤ n && n ≤ 0x1E) || n == 0x85 || n == 0x2028 ||
    n == 0x2029

/-- What ends a line is a blank. -/
theorem isBlank_of_isLineBreak {c : Char} (h : isLineBreak c = true) :
    isBlank c = true := by
  simp only [isLineBreak, isBlank, Bool.or_eq_true, Bool.and_eq_true,
    decide_eq_true_eq, beq_iff_eq] at h ⊢
  omega

/-! ## Trimming and cutting -/

/-- The text without the blanks at its two ends. -/
def trim (text : List Char) : List Char :=
  ((text.dropWhile isBlank).reverse.dropWhile isBlank).reverse

/-- The text up to its first line break. -/
def firstLine (text : List Char) : List Char :=
  text.takeWhile fun c => !isLineBreak c

/-- How many characters an excerpt holds at most. -/
def excerptLimit : Nat := 40

/-- The start of a text as messages show it; `none` for a text of blanks. -/
def excerpt? (text : List Char) : Option (List Char) :=
  match trim text with
  | [] => none
  | c :: cs => some ((firstLine (c :: cs)).take excerptLimit)

end RubySmells.Text
