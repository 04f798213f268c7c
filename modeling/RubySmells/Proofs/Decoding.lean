import Mathlib.Algebra.Group.Nat.Defs
import RubySmells.Text.Utf8

/-!
# What the reader makes of bytes

Reading is described without the machine: characters are read as themselves, and a piece
that no character accounts for, as long as it can be the start of one, becomes one U+FFFD
(`Utf8.Reads`).

* **the state** — the machine is in a state after exactly the bytes it should be: the
  characters that begin with these bytes are those the state admits, and what is missing
  of them are their last bytes (`Utf8.Pending.After`, kept by
  `Utf8.Pending.After.next`);
* **the reading** — the machine reads any bytes as described
  (`Utf8.reads_decodeFrom`), and there is no second way to read them
  (`Utf8.Reads.unique`), so `Utf8.decode` is the one reading (`Utf8.reads_iff`);
* **round trip** — a text that was written is read back (`Utf8.decode_encode`).
-/

namespace RubySmells.Utf8

/-! ## The bytes of a value -/

/-- A continuation byte of a value; they are counted from the last one. -/
def continuation (v k : Nat) : UInt8 :=
  UInt8.ofNat (v / 64 ^ k % 64 + 0x80)

/-- The last `n` bytes of a value that has more than `n`. -/
def continuations (v : Nat) : Nat → List UInt8
  | 0 => []
  | n + 1 => continuation v n :: continuations v n

/-- `Announces b v n`: the value `v` is written as the byte `b` and `n` continuation
bytes. -/
inductive Announces (b : UInt8) (v : Nat) : Nat → Prop
  | alone : v < 0x80 → b.toNat = v → Announces b v 0
  | one : 0x80 ≤ v → v < 0x800 → b.toNat = v / 64 ^ 1 + 0xC0 → Announces b v 1
  | two : 0x800 ≤ v → v < 0x10000 → b.toNat = v / 64 ^ 2 + 0xE0 → Announces b v 2
  | three : 0x10000 ≤ v → b.toNat = v / 64 ^ 3 + 0xF0 → Announces b v 3

theorem toNat_continuation (v k : Nat) :
    (continuation v k).toNat = v / 64 ^ k % 64 + 0x80 := by
  rw [continuation, UInt8.toNat_ofNat', Nat.mod_eq_of_lt]
  omega

theorem toNat_lt_size (c : Char) : c.toNat < 0x110000 := by
  have hvalid : c.toNat.isValidChar := c.valid
  simp only [Nat.isValidChar] at hvalid
  omega

theorem toNat_ofNat {v : Nat} (h : v.isValidChar) : (Char.ofNat v).toNat = v := by
  rw [Char.ofNat, dif_pos h]
  rfl

theorem exists_announces (c : Char) : ∃ b n, Announces b c.toNat n := by
  have hsize := toNat_lt_size c
  have hbyte (m : Nat) (hm : m < 256) : (UInt8.ofNat m).toNat = m := by
    rw [UInt8.toNat_ofNat', Nat.mod_eq_of_lt hm]
  by_cases hone : c.toNat < 0x80
  · exact ⟨_, 0, .alone hone (hbyte _ (by omega))⟩
  by_cases htwo : c.toNat < 0x800
  · exact ⟨_, 1, .one (by omega) htwo (hbyte _ (by omega))⟩
  by_cases hthree : c.toNat < 0x10000
  · exact ⟨_, 2, .two (by omega) hthree (hbyte _ (by omega))⟩
  · exact ⟨_, 3, .three (by omega) (hbyte _ (by omega))⟩

theorem Announces.encodeChar_eq {b : UInt8} {c : Char} {n : Nat}
    (h : Announces b c.toNat n) :
    String.utf8EncodeChar c = b :: continuations c.toNat n := by
  have hsize := toNat_lt_size c
  have hbyte {m : Nat} (hm : b.toNat = m) : UInt8.ofNat m = b := by
    rw [← hm, UInt8.ofNat_toNat]
  unfold String.utf8EncodeChar
  simp only [Char.toNat_val]
  cases h with
  | alone hlt hb =>
      rw [if_pos (by omega), hbyte hb]
      rfl
  | one hge hlt hb =>
      rw [if_neg (by omega), if_pos (by omega), hbyte (by omega)]
      simp [continuations, continuation]
  | two hge hlt hb =>
      rw [if_neg (by omega), if_neg (by omega), if_pos (by omega), hbyte (by omega)]
      simp [continuations, continuation]
  | three hge hb =>
      rw [if_neg (by omega), if_neg (by omega), if_neg (by omega), hbyte (by omega)]
      simp [continuations, continuation]

theorem encodeChar_eq_cons_iff {c : Char} {b : UInt8} {bs : List UInt8} :
    String.utf8EncodeChar c = b :: bs ↔
      ∃ n, Announces b c.toNat n ∧ bs = continuations c.toNat n := by
  constructor
  · intro h
    obtain ⟨b', n, hfirst⟩ := exists_announces c
    rw [hfirst.encodeChar_eq] at h
    obtain ⟨rfl, rfl⟩ := List.cons.inj h
    exact ⟨n, hfirst, rfl⟩
  · rintro ⟨n, hfirst, rfl⟩
    exact hfirst.encodeChar_eq

/-- No character is the start of another. -/
theorem encodeChar_append_inj {c d : Char} {xs ys : List UInt8}
    (h : String.utf8EncodeChar c ++ xs = String.utf8EncodeChar d ++ ys) :
    c = d ∧ xs = ys := by
  have harray := congrArg List.toByteArray h
  rw [List.toByteArray_append, List.toByteArray_append] at harray
  have hc := ByteArray.utf8DecodeChar?_utf8EncodeChar_append (b := xs.toByteArray) (c := c)
  rw [harray, ByteArray.utf8DecodeChar?_utf8EncodeChar_append] at hc
  obtain rfl := Option.some.inj hc
  exact ⟨rfl, List.append_cancel_left h⟩

/-! ## What a first byte says -/

/-- What the first byte of a longer sequence says of the rest: its bits, how many bytes
come, and the bounds of the next one. -/
inductive Pending.OpenedBy (b : UInt8) (p : Pending) : Prop
  | one : p.later = 0 → b.toNat = p.value + 0xC0 → 2 ≤ p.value → p.value < 0x20 →
      p.low.toNat = 0x80 → p.high.toNat = 0xBF → OpenedBy b p
  | two : p.later = 1 → b.toNat = p.value + 0xE0 → p.value < 0x10 →
      (p.value = 0 ∧ p.low.toNat = 0xA0 ∨ p.value ≠ 0 ∧ p.low.toNat = 0x80) →
      (p.value = 0xD ∧ p.high.toNat = 0x9F ∨ p.value ≠ 0xD ∧ p.high.toNat = 0xBF) →
      OpenedBy b p
  | three : p.later = 2 → b.toNat = p.value + 0xF0 → p.value < 5 →
      (p.value = 0 ∧ p.low.toNat = 0x90 ∨ p.value ≠ 0 ∧ p.low.toNat = 0x80) →
      (p.value = 4 ∧ p.high.toNat = 0x8F ∨ p.value ≠ 4 ∧ p.high.toNat = 0xBF) →
      OpenedBy b p

/-- No character starts with such a byte. -/
def IsStray (b : UInt8) : Prop :=
  0x80 ≤ b.toNat ∧ b.toNat < 0xC2 ∨ 0xF4 < b.toNat

/-- What a byte between two characters says. -/
inductive Lead.SaidBy (b : UInt8) : Lead → Prop
  | single : b.toNat < 0x80 → SaidBy b (.single (Char.ofNat b.toNat))
  | opening {p : Pending} : p.OpenedBy b → SaidBy b (.opening p)
  | stray : IsStray b → SaidBy b .stray

namespace Pending.OpenedBy

variable {b : UInt8}

theorem free_one (hge : 0xC2 ≤ b.toNat) (hlt : b.toNat < 0xE0) :
    (free (b.toNat - 0xC0) 0).OpenedBy b := by
  generalize hvalue : b.toNat - 0xC0 = value
  exact .one rfl (show b.toNat = value + 0xC0 by omega) (show 2 ≤ value by omega)
    (show value < 0x20 by omega) rfl rfl

theorem of_E0 (h : b.toNat = 0xE0) : OpenedBy b ⟨0, 0xA0, 0xBF, 1⟩ :=
  .two rfl h (by decide) (.inl ⟨rfl, rfl⟩) (.inr ⟨by decide, rfl⟩)

theorem of_ED (h : b.toNat = 0xED) : OpenedBy b ⟨0xD, 0x80, 0x9F, 1⟩ :=
  .two rfl h (by decide) (.inr ⟨by decide, rfl⟩) (.inl ⟨rfl, rfl⟩)

theorem free_two (hge : 0xE0 < b.toNat) (hlt : b.toNat < 0xF0) (hED : b.toNat ≠ 0xED) :
    (free (b.toNat - 0xE0) 1).OpenedBy b := by
  generalize hvalue : b.toNat - 0xE0 = value
  exact .two rfl (show b.toNat = value + 0xE0 by omega) (show value < 0x10 by omega)
    (.inr ⟨show value ≠ 0 by omega, rfl⟩) (.inr ⟨show value ≠ 0xD by omega, rfl⟩)

theorem of_F0 (h : b.toNat = 0xF0) : OpenedBy b ⟨0, 0x90, 0xBF, 2⟩ :=
  .three rfl h (by decide) (.inl ⟨rfl, rfl⟩) (.inr ⟨by decide, rfl⟩)

theorem free_three (hge : 0xF0 < b.toNat) (hlt : b.toNat < 0xF4) :
    (free (b.toNat - 0xF0) 2).OpenedBy b := by
  generalize hvalue : b.toNat - 0xF0 = value
  exact .three rfl (show b.toNat = value + 0xF0 by omega) (show value < 5 by omega)
    (.inr ⟨show value ≠ 0 by omega, rfl⟩) (.inr ⟨show value ≠ 4 by omega, rfl⟩)

theorem of_F4 (h : b.toNat = 0xF4) : OpenedBy b ⟨4, 0x80, 0x8F, 2⟩ :=
  .three rfl h (by decide) (.inr ⟨by decide, rfl⟩) (.inl ⟨rfl, rfl⟩)

end Pending.OpenedBy

theorem Lead.saidBy_ofByte (b : UInt8) : SaidBy b (ofByte b) := by
  unfold ofByte
  dsimp only
  by_cases hsingle : b.toNat < 0x80
  · rw [if_pos hsingle]
    exact .single hsingle
  by_cases hlow : b.toNat < 0xC2
  · rw [if_neg hsingle, if_pos hlow]
    exact .stray (.inl ⟨by omega, hlow⟩)
  rw [if_neg hsingle, if_neg hlow]
  by_cases hone : b.toNat < 0xE0
  · rw [if_pos hone]
    exact .opening (.free_one (by omega) hone)
  rw [if_neg hone]
  -- Three bytes: E0 and ED bound the second one.
  by_cases hE0 : b.toNat = 0xE0
  · rw [if_pos hE0]
    exact .opening (.of_E0 hE0)
  by_cases hED : b.toNat = 0xED
  · rw [if_neg hE0, if_pos hED]
    exact .opening (.of_ED hED)
  rw [if_neg hE0, if_neg hED]
  by_cases htwo : b.toNat < 0xF0
  · rw [if_pos htwo]
    exact .opening (.free_two (by omega) htwo hED)
  rw [if_neg htwo]
  -- Four bytes: F0 and F4 bound the second one.
  by_cases hF0 : b.toNat = 0xF0
  · rw [if_pos hF0]
    exact .opening (.of_F0 hF0)
  by_cases hthree : b.toNat < 0xF4
  · rw [if_neg hF0, if_pos hthree]
    exact .opening (.free_three (by omega) hthree)
  rw [if_neg hF0, if_neg hthree]
  by_cases hF4 : b.toNat = 0xF4
  · rw [if_pos hF4]
    exact .opening (.of_F4 hF4)
  · rw [if_neg hF4]
    exact .stray (.inr (by omega))

theorem encodeChar_of_single {b : UInt8} (h : b.toNat < 0x80) :
    String.utf8EncodeChar (Char.ofNat b.toNat) = [b] := by
  have hvalue := toNat_ofNat (.inl (by omega) : b.toNat.isValidChar)
  exact (Announces.alone (by omega) hvalue.symm).encodeChar_eq

theorem IsStray.encodeChar_ne {b : UInt8} (h : IsStray b) (c : Char) (bs : List UInt8) :
    String.utf8EncodeChar c ≠ b :: bs := by
  have hsize := toNat_lt_size c
  intro hc
  obtain ⟨n, hfirst, -⟩ := encodeChar_eq_cons_iff.1 hc
  unfold IsStray at h
  cases hfirst <;> omega

/-! ## The state of the reader -/

/-- The value can come of the open sequence. -/
structure Pending.Admits (p : Pending) (v : Nat) : Prop where
  value_eq : v / 64 ^ (p.later + 1) = p.value
  low_le : p.low.toNat ≤ v / 64 ^ p.later % 64 + 0x80
  le_high : v / 64 ^ p.later % 64 + 0x80 ≤ p.high.toNat

/-- The bytes read of a character leave the reader in a state that admits exactly the
characters that begin with them, and expects what is missing. -/
structure Pending.After (read : List UInt8) (p : Pending) : Prop where
  ne_nil : read ≠ []
  low_ge : 0x80 ≤ p.low.toNat
  low_le : p.low.toNat ≤ p.high.toNat
  high_le : p.high.toNat ≤ 0xBF
  isValidChar {v : Nat} : p.Admits v → v.isValidChar
  encodeChar_iff {c : Char} {bs : List UInt8} : String.utf8EncodeChar c = read ++ bs ↔
    p.Admits c.toNat ∧ bs = continuations c.toNat (p.later + 1)

variable {b : UInt8} {p : Pending} {read : List UInt8}

/-- The bounds on the second byte keep out exactly what is no character or has a shorter
form. -/
theorem Pending.OpenedBy.admits_iff (h : p.OpenedBy b) {v : Nat} :
    p.Admits v ↔ v.isValidChar ∧ Announces b v (p.later + 1) := by
  simp only [Nat.isValidChar]
  constructor
  · rintro ⟨hvalue, hlow, hhigh⟩
    cases h with
    | one hlater hb hge hlt hl hh =>
        rw [hlater] at hvalue hlow hhigh ⊢
        exact ⟨by omega, .one (by omega) (by omega) (by omega)⟩
    | two hlater hb hlt hl hh =>
        rw [hlater] at hvalue hlow hhigh ⊢
        exact ⟨by omega, .two (by omega) (by omega) (by omega)⟩
    | three hlater hb hlt hl hh =>
        rw [hlater] at hvalue hlow hhigh ⊢
        exact ⟨by omega, .three (by omega) (by omega)⟩
  · rintro ⟨hvalid, hfirst⟩
    cases h with
    | one hlater hb hge hlt hl hh =>
        rw [hlater] at hfirst
        refine ⟨?_, ?_, ?_⟩ <;> rw [hlater] <;> cases hfirst <;> omega
    | two hlater hb hlt hl hh =>
        rw [hlater] at hfirst
        refine ⟨?_, ?_, ?_⟩ <;> rw [hlater] <;> cases hfirst <;> omega
    | three hlater hb hlt hl hh =>
        rw [hlater] at hfirst
        refine ⟨?_, ?_, ?_⟩ <;> rw [hlater] <;> cases hfirst <;> omega

/-- A first byte says how many follow. -/
theorem Pending.OpenedBy.eq_of_announces (h : p.OpenedBy b) {c : Char} {n : Nat}
    (hfirst : Announces b c.toNat n) : n = p.later + 1 := by
  have hsize := toNat_lt_size c
  cases h <;> cases hfirst <;> omega

/-- A first byte leaves the reader in the state it asks for. -/
theorem Pending.OpenedBy.after (h : p.OpenedBy b) : p.After [b] where
  ne_nil := List.cons_ne_nil b []
  low_ge := by cases h <;> omega
  low_le := by cases h <;> omega
  high_le := by cases h <;> omega
  isValidChar hv := (h.admits_iff.1 hv).1
  encodeChar_iff {c bs} := by
    show String.utf8EncodeChar c = b :: bs ↔ _
    rw [encodeChar_eq_cons_iff]
    constructor
    · rintro ⟨n, hfirst, rfl⟩
      obtain rfl := h.eq_of_announces hfirst
      exact ⟨h.admits_iff.2 ⟨c.valid, hfirst⟩, rfl⟩
    · rintro ⟨hadmits, rfl⟩
      exact ⟨_, (h.admits_iff.1 hadmits).2, rfl⟩

namespace Pending.After

/-- One more byte picks, of the values admitted, those that go on with it. -/
theorem admits_free_iff (h : p.After read) (hlow : p.low ≤ b) (hhigh : b ≤ p.high) {k : Nat}
    (hlater : p.later = k + 1) {v : Nat} :
    (free (p.value * 64 + (b.toNat - 0x80)) k).Admits v ↔
      p.Admits v ∧ continuation v p.later = b := by
  have hge := h.low_ge
  have hle := h.high_le
  rw [UInt8.le_iff_toNat_le] at hlow hhigh
  have hdiv : v / 64 ^ (k + 1 + 1) = v / 64 ^ (k + 1) / 64 := by
    rw [Nat.pow_succ, Nat.div_div_eq_div_mul]
  rw [← UInt8.toNat_inj, toNat_continuation, hlater]
  constructor
  · rintro ⟨hvalue, -, -⟩
    have hbits : v / 64 ^ (k + 1) = p.value * 64 + (b.toNat - 0x80) := hvalue
    refine ⟨⟨?_, ?_, ?_⟩, by omega⟩ <;> rw [hlater] <;> omega
  · rintro ⟨⟨hvalue, -, -⟩, hb⟩
    rw [hlater] at hvalue
    refine ⟨show v / 64 ^ (k + 1) = p.value * 64 + (b.toNat - 0x80) by omega, ?_, ?_⟩
    · show 0x80 ≤ v / 64 ^ k % 64 + 0x80
      omega
    · show v / 64 ^ k % 64 + 0x80 ≤ 0xBF
      omega

/-- **One step.** A byte within the bounds that is not the last one. -/
theorem next (h : p.After read) (hlow : p.low ≤ b) (hhigh : b ≤ p.high) {k : Nat}
    (hlater : p.later = k + 1) :
    (free (p.value * 64 + (b.toNat - 0x80)) k).After (read ++ [b]) where
  ne_nil := List.append_ne_nil_of_left_ne_nil h.ne_nil [b]
  low_ge := Nat.le_refl 0x80
  low_le := show 0x80 ≤ 0xBF by decide
  high_le := Nat.le_refl 0xBF
  isValidChar hv := h.isValidChar ((h.admits_free_iff hlow hhigh hlater).1 hv).1
  encodeChar_iff {c bs} := by
    rw [h.admits_free_iff hlow hhigh hlater, List.append_assoc, h.encodeChar_iff, hlater]
    show p.Admits c.toNat ∧
      b :: bs = continuation c.toNat (k + 1) :: continuations c.toNat (k + 1) ↔ _
    rw [List.cons.injEq]
    constructor
    · rintro ⟨hadmits, rfl, hbs⟩
      exact ⟨⟨hadmits, rfl⟩, hbs⟩
    · rintro ⟨⟨hadmits, rfl⟩, hbs⟩
      exact ⟨hadmits, rfl, hbs⟩

/-- Each byte within the bounds is the next one of some character. -/
theorem admits_shifted (h : p.After read) (hlow : p.low ≤ b) (hhigh : b ≤ p.high) :
    p.Admits ((p.value * 64 + (b.toNat - 0x80)) * 64 ^ p.later) := by
  have hge := h.low_ge
  have hle := h.high_le
  rw [UInt8.le_iff_toNat_le] at hlow hhigh
  have hshift (m : Nat) : m * 64 ^ p.later / 64 ^ p.later = m :=
    Nat.mul_div_cancel m (Nat.pow_pos (by decide))
  refine ⟨?_, ?_, ?_⟩
  · rw [Nat.pow_succ, ← Nat.div_div_eq_div_mul, hshift]
    omega
  · rw [hshift]
    omega
  · rw [hshift]
    omega

/-- The last byte makes the character. -/
theorem encodeChar_last (h : p.After read) (hlow : p.low ≤ b) (hhigh : b ≤ p.high)
    (hlater : p.later = 0) :
    String.utf8EncodeChar (Char.ofNat (p.value * 64 + (b.toNat - 0x80))) = read ++ [b] := by
  have hadmits := h.admits_shifted hlow hhigh
  have hge := h.low_ge
  have hle := h.high_le
  rw [UInt8.le_iff_toNat_le] at hlow hhigh
  rw [hlater, Nat.pow_zero, Nat.mul_one] at hadmits
  generalize hv : p.value * 64 + (b.toNat - 0x80) = v at hadmits ⊢
  rw [h.encodeChar_iff, toNat_ofNat (h.isValidChar hadmits)]
  refine ⟨hadmits, ?_⟩
  rw [hlater]
  show [b] = [continuation v 0]
  rw [List.singleton_inj, ← UInt8.toNat_inj, toNat_continuation]
  omega

/-- What is read so far is the start of some character, and not all of it. -/
theorem exists_encodeChar (h : p.After read) :
    ∃ c missing, String.utf8EncodeChar c = read ++ missing ∧ missing ≠ [] := by
  have hlow : p.low ≤ p.high := UInt8.le_iff_toNat_le.2 h.low_le
  have hadmits := h.admits_shifted (UInt8.le_refl p.low) hlow
  generalize (p.value * 64 + (p.low.toNat - 0x80)) * 64 ^ p.later = v at hadmits
  have hv := toNat_ofNat (h.isValidChar hadmits)
  rw [← hv] at hadmits
  exact ⟨Char.ofNat v, _, h.encodeChar_iff.2 ⟨hadmits, rfl⟩, List.cons_ne_nil _ _⟩

end Pending.After

/-! ## Reading without a machine -/

/-- Some character begins with these bytes. -/
def Begins (piece : List UInt8) : Prop :=
  ∃ c, piece <+: String.utf8EncodeChar c

/-- An ill-formed piece, up to what stands behind it: there is no character at its place,
it is the start of one or a single byte, and nothing longer is the start of one. -/
structure IllFormed (piece rest : List UInt8) : Prop where
  ne_nil : piece ≠ []
  unconvertible (c : Char) : ¬ String.utf8EncodeChar c <+: piece ++ rest
  initial : Begins piece ∨ piece.length = 1
  maximal {longer : List UInt8} : longer <+: piece ++ rest → Begins longer →
    longer.length ≤ piece.length

/-- Bytes read as text. -/
inductive Reads : List UInt8 → List Char → Prop
  | nil : Reads [] []
  | char (c : Char) {rest : List UInt8} {text : List Char} :
      Reads rest text → Reads (String.utf8EncodeChar c ++ rest) (c :: text)
  | illFormed {piece rest : List UInt8} {text : List Char} :
      IllFormed piece rest → Reads rest text → Reads (piece ++ rest) (replacement :: text)

theorem IllFormed.length_le {piece rest piece' rest' : List UInt8} (h : IllFormed piece rest)
    (h' : IllFormed piece' rest') (heq : piece ++ rest = piece' ++ rest') :
    piece.length ≤ piece'.length := by
  rcases h.initial with hbegins | hone
  · exact h'.maximal (heq ▸ List.prefix_append piece rest) hbegins
  · have hpos := List.length_pos_iff.2 h'.ne_nil
    omega

/-- There is only one way to read bytes: a character excludes an ill-formed piece at its
place and any other character, and of two ill-formed pieces neither is the longer. -/
theorem Reads.unique {bytes : List UInt8} {text : List Char} (h : Reads bytes text) :
    ∀ {bytes' text'}, Reads bytes' text' → bytes = bytes' → text = text' := by
  induction h with
  | nil =>
      intro bytes' text' h' heq
      cases h' with
      | nil => rfl
      | char c _ =>
          exact absurd (List.append_eq_nil_iff.1 heq.symm).1 String.utf8EncodeChar_ne_nil
      | illFormed hpiece _ =>
          exact absurd (List.append_eq_nil_iff.1 heq.symm).1 hpiece.ne_nil
  | char c _ ih =>
      intro bytes' text' h' heq
      cases h' with
      | nil => exact absurd (List.append_eq_nil_iff.1 heq).1 String.utf8EncodeChar_ne_nil
      | char d hrest =>
          obtain ⟨rfl, hrest_eq⟩ := encodeChar_append_inj heq
          rw [ih hrest hrest_eq]
      | illFormed hpiece _ => exact absurd ⟨_, heq⟩ (hpiece.unconvertible c)
  | illFormed hpiece _ ih =>
      intro bytes' text' h' heq
      cases h' with
      | nil => exact absurd (List.append_eq_nil_iff.1 heq).1 hpiece.ne_nil
      | char d _ => exact absurd ⟨_, heq.symm⟩ (hpiece.unconvertible d)
      | illFormed hpiece' hrest =>
          have hlength := Nat.le_antisymm (hpiece.length_le hpiece' heq)
            (hpiece'.length_le hpiece heq.symm)
          obtain ⟨-, hrest_eq⟩ := List.append_inj heq hlength
          rw [ih hrest hrest_eq]

/-! ## Ill-formed pieces -/

/-- A byte out of the bounds takes no character any further. -/
theorem Pending.After.length_le (h : p.After read) {rest : List UInt8}
    (hrest : ∀ b ∈ rest.head?, ¬ (p.low ≤ b ∧ b ≤ p.high)) {longer : List UInt8}
    (hlonger : longer <+: read ++ rest) (hbegins : Begins longer) :
    longer.length ≤ read.length := by
  obtain ⟨c, hc⟩ := hbegins
  rcases List.prefix_or_prefix_of_prefix hlonger (List.prefix_append read rest) with hle | hge
  · exact hle.length_le
  obtain ⟨more, rfl⟩ := hge
  obtain ⟨last, hlast⟩ := hc
  rw [List.append_assoc] at hlast
  obtain ⟨⟨-, hlow, hhigh⟩, hmore⟩ := h.encodeChar_iff.1 hlast.symm
  cases more with
  | nil => simp
  | cons b more =>
      -- The byte behind `read` is then the next one of a character, so within the bounds.
      rw [continuations, List.cons_append, List.cons.injEq] at hmore
      have hhead : b ∈ rest.head? := by
        obtain ⟨bs, hbs⟩ := (List.prefix_append_right_inj read).1 hlonger
        rw [← hbs]
        rfl
      refine absurd ?_ (hrest b hhead)
      rw [hmore.1, UInt8.le_iff_toNat_le, UInt8.le_iff_toNat_le, toNat_continuation]
      exact ⟨hlow, hhigh⟩

/-- An open sequence that does not go on is an ill-formed piece. -/
theorem Pending.After.illFormed (h : p.After read) {rest : List UInt8}
    (hrest : ∀ b ∈ rest.head?, ¬ (p.low ≤ b ∧ b ≤ p.high)) : IllFormed read rest := by
  obtain ⟨d, missing, hd, hmissing⟩ := h.exists_encodeChar
  refine ⟨h.ne_nil, ?_, .inl ⟨d, missing, hd.symm⟩, h.length_le hrest⟩
  intro c hc
  -- A character in the piece would be the start of the one that the piece is the start of.
  have hlength := h.length_le hrest hc ⟨c, List.prefix_rfl⟩
  obtain ⟨more, hmore⟩ :=
    List.prefix_of_prefix_length_le hc (List.prefix_append read rest) hlength
  have hwhole :
      String.utf8EncodeChar d ++ [] = String.utf8EncodeChar c ++ (more ++ missing) := by
    rw [List.append_nil, hd, ← hmore, List.append_assoc]
  exact hmissing (List.append_eq_nil_iff.1 (encodeChar_append_inj hwhole).2.symm).2

/-- A byte that starts nothing is an ill-formed piece. -/
theorem IsStray.illFormed (h : IsStray b) (rest : List UInt8) : IllFormed [b] rest where
  ne_nil := List.cons_ne_nil b []
  unconvertible c hc := by
    rcases List.prefix_cons_iff.1 hc with hnil | ⟨bs, hbs, -⟩
    · exact String.utf8EncodeChar_ne_nil hnil
    · exact h.encodeChar_ne c bs hbs
  initial := .inr rfl
  maximal {longer} hlonger hbegins := by
    obtain ⟨c, last, hlast⟩ := hbegins
    rcases List.prefix_cons_iff.1 hlonger with rfl | ⟨bs, rfl, -⟩
    · exact Nat.zero_le 1
    · exact absurd hlast.symm (h.encodeChar_ne c (bs ++ last))

/-! ## What the machine reads -/

theorem advance_last (hlow : p.low ≤ b) (hhigh : b ≤ p.high) (hlater : p.later = 0) :
    advance (some p) b = ([Char.ofNat (p.value * 64 + (b.toNat - 0x80))], none) := by
  simp only [advance, hlater]
  rw [if_pos ⟨hlow, hhigh⟩]

theorem advance_more (hlow : p.low ≤ b) (hhigh : b ≤ p.high) {k : Nat}
    (hlater : p.later = k + 1) :
    advance (some p) b = ([], some (.free (p.value * 64 + (b.toNat - 0x80)) k)) := by
  simp only [advance, hlater]
  rw [if_pos ⟨hlow, hhigh⟩]

/-- A byte out of the bounds ends the sequence, and is looked at afresh. -/
theorem decodeFrom_refused (h : ¬ (p.low ≤ b ∧ b ≤ p.high)) (bytes : List UInt8) :
    decodeFrom (some p) (b :: bytes) = replacement :: decodeFrom none (b :: bytes) := by
  simp only [decodeFrom, advance]
  rw [if_neg h]
  rfl

/-- The machine reads as described, from between two characters and from within one. -/
theorem reads_decodeFrom (bytes : List UInt8) :
    Reads bytes (decodeFrom none bytes) ∧
      ∀ {read p}, Pending.After read p →
        Reads (read ++ bytes) (decodeFrom (some p) bytes) := by
  induction bytes with
  | nil => exact ⟨.nil, fun h => .illFormed (h.illFormed (by simp)) .nil⟩
  | cons b bytes ih =>
      obtain ⟨ihnone, ihsome⟩ := ih
      have hstart : Reads (b :: bytes) (decodeFrom none (b :: bytes)) := by
        have hlead := Lead.saidBy_ofByte b
        simp only [decodeFrom, advance, start]
        -- From here on only what the byte says counts, not how it was classified.
        generalize Lead.ofByte b = lead at hlead
        cases hlead with
        | single hsmall =>
            have hchar := Reads.char (Char.ofNat b.toNat) ihnone
            rw [encodeChar_of_single hsmall] at hchar
            exact hchar
        | opening hopen => exact ihsome hopen.after
        | stray hstray => exact .illFormed (hstray.illFormed bytes) ihnone
      refine ⟨hstart, fun {read p} h => ?_⟩
      by_cases hb : p.low ≤ b ∧ b ≤ p.high
      · obtain ⟨hlow, hhigh⟩ := hb
        cases hlater : p.later with
        | zero =>
            have hchar :=
              Reads.char (Char.ofNat (p.value * 64 + (b.toNat - 0x80))) ihnone
            rw [h.encodeChar_last hlow hhigh hlater, List.append_assoc] at hchar
            simp only [decodeFrom, advance_last hlow hhigh hlater]
            exact hchar
        | succ k =>
            have hmore := ihsome (h.next hlow hhigh hlater)
            rw [List.append_assoc] at hmore
            simp only [decodeFrom, advance_more hlow hhigh hlater]
            exact hmore
      · rw [decodeFrom_refused hb]
        exact .illFormed (h.illFormed (by simpa using hb)) hstart

/-- **One reading.** Whatever the bytes are, they are read in exactly one way. -/
theorem reads_iff {bytes : List UInt8} {text : List Char} :
    Reads bytes text ↔ text = decode bytes := by
  have hdecode := (reads_decodeFrom bytes).1
  constructor
  · intro h
    exact h.unique hdecode rfl
  · rintro rfl
    exact hdecode

theorem reads_encode (text : List Char) : Reads (encode text) text := by
  induction text with
  | nil => exact .nil
  | cons c text ih => exact .char c ih

/-- **Round trip.** A text that was written is read back as it was. -/
theorem decode_encode (text : List Char) : decode (encode text) = text :=
  (reads_iff.1 (reads_encode text)).symm

end RubySmells.Utf8
