import Mathlib.Algebra.Group.Nat.Defs
import RubySmells.Text.Excerpt
import RubySmells.Text.Quoted

/-!
# Reading back what was quoted

* **round trip** — a quoted text is read back as it was, whatever is in it
  (`Text.Quoted.decode_encode`). Each character is: whatever stands behind it is read
  as it would be without it (`Text.Quoted.decodeBody_escape`);
* **one line** — a quoted text holds nothing that ends a line
  (`Text.Quoted.isLineBreak_of_mem_encode`), since what ends a line is not printable.
-/

namespace RubySmells.Text.Quoted

/-! ## Hexadecimal numbers -/

theorem hexValue?_hexDigit : ∀ n < 16, hexValue? (hexDigit n) = some n := by
  decide

theorem hexNumber?_concat (ds : List Char) (d : Char) :
    hexNumber? (ds ++ [d]) = (hexNumber? ds).bind fun n => (hexValue? d).map (n * 16 + ·) := by
  rw [hexNumber?, List.foldlM_append]
  simp only [List.foldlM_cons, List.foldlM_nil, bind_pure]
  rfl

/-- Enough digits of a number give it back. -/
theorem hexNumber?_hexDigits {width n : Nat} (h : n < 16 ^ width) :
    hexNumber? (hexDigits width n) = some n := by
  induction width generalizing n with
  | zero =>
      obtain rfl : n = 0 := by simpa using h
      rfl
  | succ width ih =>
      have hhigh : n / 16 < 16 ^ width := by
        rw [Nat.div_lt_iff_lt_mul (by decide), ← Nat.pow_succ]
        exact h
      rw [hexDigits, hexNumber?_concat, ih hhigh, Option.bind_some,
        hexValue?_hexDigit _ (Nat.mod_lt n (by decide)), Option.map_some, Nat.div_add_mod']

theorem hexEscape?_hexDigits {width : Nat} {c : Char} (h : c.toNat < 16 ^ width) :
    hexEscape? (hexDigits width c.toNat) = some c := by
  have hvalid : c.toNat.isValidChar := c.valid
  rw [hexEscape?, hexNumber?_hexDigits h, Option.bind_some, charOf?, if_pos hvalid,
    Char.ofNat_toNat]

theorem toNat_lt_pow_eight (c : Char) : c.toNat < 16 ^ 8 := by
  have hvalid : c.toNat.isValidChar := c.valid
  simp only [Nat.isValidChar] at hvalid
  omega

/-! ## Round trip -/

/-- A mark that can stand around a text. -/
def IsMark (mark : Char) : Prop := mark = '\'' ∨ mark = '"'

theorem isMark_markFor (text : List Char) : IsMark (markFor text) := by
  rw [markFor]
  split
  · exact .inr rfl
  · exact .inl rfl

variable {mark c : Char}

theorem letterEscape?_mark (h : IsMark mark) : letterEscape? mark = some mark := by
  rcases h with rfl | rfl <;> rfl

/-- A character that stands for itself. -/
theorem decodeBody_plain (hmark : c ≠ mark) (hbackslash : c ≠ '\\') (hfeed : c ≠ '\n')
    (hreturn : c ≠ '\r') (r : List Char) :
    decodeBody mark (c :: r) = (decodeBody mark r).map (c :: ·) := by
  rw [decodeBody, if_neg hmark, if_neg (by simp [hbackslash, hfeed, hreturn])]
  all_goals simp [hbackslash]

/-- A backslash and a letter that has a meaning of its own. -/
theorem decodeBody_letter {x : Char} (hx : letterEscape? c = some x) (r : List Char) :
    decodeBody mark ('\\' :: c :: r) = (decodeBody mark r).map (x :: ·) := by
  rw [decodeBody, hx]
  · cases decodeBody mark r <;> rfl
  -- It is none of the letters that announce digits.
  all_goals
    intros
    rename_i hletter _
    rw [hletter] at hx
    exact absurd hx (by simp [letterEscape?])

/-- A backslash, `x` and two digits. -/
theorem decodeBody_byte {n : Nat} {x : Char} (hx : hexEscape? (hexDigits 2 n) = some x)
    (r : List Char) :
    decodeBody mark ('\\' :: 'x' :: (hexDigits 2 n ++ r)) = (decodeBody mark r).map (x :: ·) := by
  simp only [hexDigits, List.nil_append, List.cons_append] at hx ⊢
  rw [decodeBody, hx]
  cases decodeBody mark r <;> rfl

/-- A backslash, `u` and four digits. -/
theorem decodeBody_short {n : Nat} {x : Char} (hx : hexEscape? (hexDigits 4 n) = some x)
    (r : List Char) :
    decodeBody mark ('\\' :: 'u' :: (hexDigits 4 n ++ r)) = (decodeBody mark r).map (x :: ·) := by
  simp only [hexDigits, List.nil_append, List.cons_append] at hx ⊢
  rw [decodeBody, hx]
  cases decodeBody mark r <;> rfl

/-- A backslash, `U` and eight digits. -/
theorem decodeBody_long {n : Nat} {x : Char} (hx : hexEscape? (hexDigits 8 n) = some x)
    (r : List Char) :
    decodeBody mark ('\\' :: 'U' :: (hexDigits 8 n ++ r)) = (decodeBody mark r).map (x :: ·) := by
  simp only [hexDigits, List.nil_append, List.cons_append] at hx ⊢
  rw [decodeBody, hx]
  cases decodeBody mark r <;> rfl

/-- What is written for a character is read as that character, whatever comes behind. -/
theorem decodeBody_escape (hmark : IsMark mark) (c : Char) (r : List Char) :
    decodeBody mark (escape mark c ++ r) = (decodeBody mark r).map (c :: ·) := by
  rw [escape]
  split
  · rename_i hquoted
    refine decodeBody_letter ?_ r
    rcases hquoted with rfl | rfl
    · exact letterEscape?_mark hmark
    · rfl
  rename_i hplain
  obtain ⟨hne, hbackslash⟩ := not_or.1 hplain
  by_cases htab : c = '\t'
  · subst htab
    exact decodeBody_letter rfl r
  by_cases hfeed : c = '\n'
  · subst hfeed
    exact decodeBody_letter rfl r
  by_cases hreturn : c = '\r'
  · subst hreturn
    exact decodeBody_letter rfl r
  rw [if_neg htab, if_neg hfeed, if_neg hreturn]
  split
  · exact decodeBody_plain hne hbackslash hfeed hreturn r
  split
  · rename_i hsmall
    exact decodeBody_byte (hexEscape?_hexDigits (by omega)) r
  split
  · rename_i hsmall
    exact decodeBody_short (hexEscape?_hexDigits (by omega)) r
  · exact decodeBody_long (hexEscape?_hexDigits (toNat_lt_pow_eight c)) r

theorem decodeBody_flatMap (hmark : IsMark mark) (text : List Char) :
    decodeBody mark (text.flatMap (escape mark) ++ [mark]) = some text := by
  induction text with
  | nil =>
      rcases hmark with rfl | rfl <;> rfl
  | cons c text ih =>
      rw [List.flatMap_cons, List.append_assoc, decodeBody_escape hmark, ih]
      rfl

/-- **Round trip.** A quoted text is read back as it was. -/
theorem decode_encode (text : List Char) : decode (encode text) = some text := by
  have hbody := decodeBody_flatMap (isMark_markFor text) text
  rw [encode]
  rcases isMark_markFor text with hmark | hmark
  · rw [hmark] at hbody ⊢
    exact hbody
  · rw [hmark] at hbody ⊢
    exact hbody

/-! ## One line -/

theorem isLineBreak_hexDigit : ∀ n < 16, isLineBreak (hexDigit n) = false := by
  decide

/-- What is in a text in which no line ends does not end a line. -/
theorem isLineBreak_of_mem {text : List Char} (htext : text.any isLineBreak = false) {d : Char}
    (hd : d ∈ text) : isLineBreak d = false :=
  Bool.eq_false_iff.2 (List.any_eq_false.1 htext d hd)

theorem isLineBreak_of_mem_hexDigits {d : Char} {width n : Nat} (h : d ∈ hexDigits width n) :
    isLineBreak d = false := by
  induction width generalizing n with
  | zero => exact absurd h List.not_mem_nil
  | succ width ih =>
      rw [hexDigits, List.mem_append, List.mem_singleton] at h
      rcases h with h | rfl
      · exact ih h
      · exact isLineBreak_hexDigit _ (Nat.mod_lt n (by decide))

theorem isPrintable_of_mem_ranges (low high : Nat) (hmem : (low, high) ∈ unprintableRanges)
    (hfrom : 0x80 ≤ c.toNat) (hlow : low ≤ c.toNat) (hhigh : c.toNat ≤ high) :
    isPrintable c = false := by
  rw [isPrintable, if_neg (by omega), List.all_eq_false]
  exact ⟨_, hmem, by simp; omega⟩

/-- What ends a line is not printable. -/
theorem isPrintable_of_isLineBreak (h : isLineBreak c = true) : isPrintable c = false := by
  simp only [isLineBreak, Bool.or_eq_true, Bool.and_eq_true, decide_eq_true_eq,
    beq_iff_eq] at h
  by_cases hsmall : c.toNat < 0x80
  · rw [isPrintable, if_pos hsmall, Bool.and_eq_false_iff]
    simp
    omega
  by_cases hnext : c.toNat = 0x85
  · exact isPrintable_of_mem_ranges 0x80 0xA0 (by decide) (by omega) (by omega) (by omega)
  · exact isPrintable_of_mem_ranges 0x2028 0x202F (by decide) (by omega) (by omega) (by omega)

theorem isLineBreak_of_isMark (h : IsMark mark) : isLineBreak mark = false := by
  rcases h with rfl | rfl <;> decide

theorem isLineBreak_of_mem_escape (hmark : IsMark mark) {d : Char} (h : d ∈ escape mark c) :
    isLineBreak d = false := by
  rw [escape] at h
  split at h
  · rename_i hquoted
    have hd : d = '\\' ∨ d = c := by simpa using h
    rcases hd with rfl | rfl
    · decide
    · rcases hquoted with rfl | rfl
      · exact isLineBreak_of_isMark hmark
      · decide
  -- Else it is a letter after a backslash, the character itself, or its digits.
  have hletter : ∀ x ∈ ['\\', 't', 'n', 'r', 'x', 'u', 'U'], isLineBreak x = false :=
    fun x => isLineBreak_of_mem (by decide)
  split at h
  · exact hletter d (List.Sublist.subset (by decide) h)
  split at h
  · exact hletter d (List.Sublist.subset (by decide) h)
  split at h
  · exact hletter d (List.Sublist.subset (by decide) h)
  split at h
  · rename_i hprintable
    obtain rfl := List.mem_singleton.1 h
    cases hbreak : isLineBreak d with
    | false => rfl
    | true =>
        rw [isPrintable_of_isLineBreak hbreak] at hprintable
        exact absurd hprintable (by simp)
  have hdigits : ∀ {x : Char} {width : Nat}, x ∈ ['x', 'u', 'U'] →
      d ∈ '\\' :: x :: hexDigits width c.toNat → isLineBreak d = false := by
    intro x width hx hd
    rcases List.mem_cons.1 hd with rfl | hd
    · decide
    rcases List.mem_cons.1 hd with rfl | hd
    · exact hletter d (List.Sublist.subset (by decide) hx)
    · exact isLineBreak_of_mem_hexDigits hd
  split at h
  · exact hdigits (by decide) h
  split at h
  · exact hdigits (by decide) h
  · exact hdigits (by decide) h

/-- A quoted text stands on one line. -/
theorem isLineBreak_of_mem_encode {text : List Char} {d : Char} (h : d ∈ encode text) :
    isLineBreak d = false := by
  have hmark := isMark_markFor text
  rw [encode] at h
  rcases List.mem_cons.1 h with rfl | h
  · exact isLineBreak_of_isMark hmark
  rcases List.mem_append.1 h with h | h
  · obtain ⟨c, -, hd⟩ := List.mem_flatMap.1 h
    exact isLineBreak_of_mem_escape hmark hd
  · obtain rfl := List.mem_singleton.1 h
    exact isLineBreak_of_isMark hmark

end RubySmells.Text.Quoted
