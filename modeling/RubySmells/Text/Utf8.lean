/-!
# UTF-8 with replacement

Source files are bytes, and names are text. This module turns the one into
the other without ever failing: every maximal ill-formed piece of the input
becomes one U+FFFD.

* `encode` writes a text, `decode` reads bytes;
* the reader is a machine that looks at one byte at a time (`advance`), whose
  state is the sequence it is in the middle of (`Pending`), so `decode` is a
  structural recursion on the bytes.
-/

namespace RubySmells.Utf8

/-- What an ill-formed piece of the input is read as. -/
def replacement : Char := Char.ofNat 0xFFFD

/-- The UTF-8 form of a text. -/
def encode (text : List Char) : List UInt8 :=
  text.flatMap String.utf8EncodeChar

/-! ## The reader's state -/

/-- A sequence whose last bytes are still to come. -/
structure Pending where
  /-- The bits read so far. -/
  value : Nat
  /-- The least byte that may come next. -/
  low : UInt8
  /-- The greatest byte that may come next. -/
  high : UInt8
  /-- How many continuation bytes must follow the next one. -/
  later : Nat
  deriving DecidableEq, Repr

/-- A sequence of which `later + 1` bytes are missing, none of them bound
beyond being a continuation byte. -/
def Pending.free (value later : Nat) : Pending :=
  ⟨value, 0x80, 0xBF, later⟩

/-- What a byte between two characters announces. The bounds on the second
byte keep out overlong forms, surrogates and values above U+10FFFF. -/
inductive Lead
  /-- A character of one byte. -/
  | single (c : Char)
  /-- The first byte of a longer sequence. -/
  | opening (p : Pending)
  /-- A byte that starts nothing. -/
  | stray
  deriving DecidableEq, Repr

/-- Classifies the first byte of a character. -/
def Lead.ofByte (b : UInt8) : Lead :=
  let n := b.toNat
  if n < 0x80 then .single (Char.ofNat n)
  else if n < 0xC2 then .stray
  else if n < 0xE0 then .opening (.free (n - 0xC0) 0)
  else if n = 0xE0 then .opening ⟨0, 0xA0, 0xBF, 1⟩
  else if n = 0xED then .opening ⟨0xD, 0x80, 0x9F, 1⟩
  else if n < 0xF0 then .opening (.free (n - 0xE0) 1)
  else if n = 0xF0 then .opening ⟨0, 0x90, 0xBF, 2⟩
  else if n < 0xF4 then .opening (.free (n - 0xF0) 2)
  else if n = 0xF4 then .opening ⟨4, 0x80, 0x8F, 2⟩
  else .stray

/-! ## Reading -/

/-- A byte between two characters: what it yields at once, and what it leaves
open. -/
def start (b : UInt8) : List Char × Option Pending :=
  match Lead.ofByte b with
  | .single c => ([c], none)
  | .opening p => ([], some p)
  | .stray => ([replacement], none)

/-- One byte from any state. A byte that cannot continue the open sequence
ends it as ill-formed and is then looked at afresh. -/
def advance : Option Pending → UInt8 → List Char × Option Pending
  | none, b => start b
  | some p, b =>
    if p.low ≤ b ∧ b ≤ p.high then
      let value := p.value * 64 + (b.toNat - 0x80)
      match p.later with
      | 0 => ([Char.ofNat value], none)
      | later + 1 => ([], some (.free value later))
    else
      let (cs, next) := start b
      (replacement :: cs, next)

/-- The end of the input cuts an open sequence short. -/
def finish : Option Pending → List Char
  | none => []
  | some _ => [replacement]

/-- Reads the bytes from a given state on. -/
def decodeFrom : Option Pending → List UInt8 → List Char
  | s, [] => finish s
  | s, b :: bs =>
    let (cs, s') := advance s b
    cs ++ decodeFrom s' bs

/-- The text of the bytes, with U+FFFD for every maximal ill-formed piece. -/
def decode (bytes : List UInt8) : List Char :=
  decodeFrom none bytes

end RubySmells.Utf8
