import RubySmells.Text.Printable

/-!
# Quoted texts

Messages show a piece of source between quotation marks, with everything that
is not printable written as an escape. `encode` writes such a literal and
`decode` reads one back.

The mark is the single one, unless the text contains it and does not contain
the double one. Inside, the mark and the backslash are written after a
backslash; tabulator, line feed and carriage return have letters of their own;
what is not printable is written by its code point in two, four or eight
hexadecimal digits, the least of these that fits.
-/

namespace RubySmells.Text.Quoted

/-! ## Hexadecimal numbers of fixed width -/

/-- The lower-case hexadecimal digit of a value below 16. -/
def hexDigit (n : Nat) : Char :=
  if n < 10 then Char.ofNat (0x30 + n) else Char.ofNat (0x57 + n)

/-- The last `width` hexadecimal digits of a number. -/
def hexDigits : (width : Nat) → Nat → List Char
  | 0, _ => []
  | width + 1, n => hexDigits width (n / 16) ++ [hexDigit (n % 16)]

/-- The value of a hexadecimal digit, of either case. -/
def hexValue? (c : Char) : Option Nat :=
  let n := c.toNat
  if 0x30 ≤ n ∧ n ≤ 0x39 then some (n - 0x30)
  else if 0x61 ≤ n ∧ n ≤ 0x66 then some (n - 0x57)
  else if 0x41 ≤ n ∧ n ≤ 0x46 then some (n - 0x37)
  else none

/-- The value of a run of hexadecimal digits. -/
def hexNumber? (digits : List Char) : Option Nat :=
  digits.foldlM (fun n c => (hexValue? c).map (n * 16 + ·)) 0

/-- The character with a code point, if there is one. -/
def charOf? (n : Nat) : Option Char :=
  if n.isValidChar then some (Char.ofNat n) else none

/-! ## Writing -/

/-- The mark around a text. -/
def markFor (text : List Char) : Char :=
  if text.contains '\'' && !text.contains '"' then '"' else '\''

/-- One character between two marks. -/
def escape (mark c : Char) : List Char :=
  if c = mark ∨ c = '\\' then ['\\', c]
  else if c = '\t' then ['\\', 't']
  else if c = '\n' then ['\\', 'n']
  else if c = '\r' then ['\\', 'r']
  else if isPrintable c then [c]
  else if c.toNat < 0x100 then '\\' :: 'x' :: hexDigits 2 c.toNat
  else if c.toNat < 0x10000 then '\\' :: 'u' :: hexDigits 4 c.toNat
  else '\\' :: 'U' :: hexDigits 8 c.toNat

/-- The literal of a text. -/
def encode (text : List Char) : List Char :=
  let mark := markFor text
  mark :: (text.flatMap (escape mark) ++ [mark])

/-! ## Reading -/

/-- The character of an escape of one letter. -/
def letterEscape? (c : Char) : Option Char :=
  match c with
  | '\\' => some '\\'
  | '\'' => some '\''
  | '"' => some '"'
  | 'a' => some (Char.ofNat 0x07)
  | 'b' => some (Char.ofNat 0x08)
  | 'f' => some (Char.ofNat 0x0C)
  | 'n' => some '\n'
  | 'r' => some '\r'
  | 't' => some '\t'
  | 'v' => some (Char.ofNat 0x0B)
  | _ => none

/-- The character that a run of hexadecimal digits stands for. -/
def hexEscape? (digits : List Char) : Option Char :=
  (hexNumber? digits).bind charOf?

/-- Reads up to the closing mark, which must end the input. A literal stands
on one line. -/
def decodeBody (mark : Char) : List Char → Option (List Char)
  | [] => none
  | '\\' :: 'x' :: a :: b :: r => do
    let c ← hexEscape? [a, b]
    return c :: (← decodeBody mark r)
  | '\\' :: 'u' :: a :: b :: c :: d :: r => do
    let x ← hexEscape? [a, b, c, d]
    return x :: (← decodeBody mark r)
  | '\\' :: 'U' :: a :: b :: c :: d :: e :: f :: g :: h :: r => do
    let x ← hexEscape? [a, b, c, d, e, f, g, h]
    return x :: (← decodeBody mark r)
  | '\\' :: c :: r => do
    let x ← letterEscape? c
    return x :: (← decodeBody mark r)
  | c :: r =>
    if c = mark then (if r.isEmpty then some [] else none)
    else if c = '\\' ∨ c = '\n' ∨ c = '\r' then none
    else (decodeBody mark r).map (c :: ·)

/-- The text of a literal. -/
def decode : List Char → Option (List Char)
  | '\'' :: r => decodeBody '\'' r
  | '"' :: r => decodeBody '"' r
  | _ => none

end RubySmells.Text.Quoted
