import RubySmells.Cst.Basic
import RubySmells.Proofs.WellFormed

/-!
# The text of a node

A node covers a range of bytes, and its text is what is read of them.

* **the bytes covered** — if the range of a node begins and ends between two characters
  of the source, or behind its end, the bytes are those of the characters in between
  (`Cst.slice_encode`), and ranges that adjoin each other cover what they cover together
  (`Cst.slice_append`);
* **the text** — so the text of the node is these characters, and any bytes can be read
  (`Cst.text_read_back`).
-/

namespace RubySmells

namespace Utf8

/-! ## Places between characters -/

theorem encode_append (xs ys : List Char) : encode (xs ++ ys) = encode xs ++ encode ys :=
  List.flatMap_append

/-- The byte that the character of number `i` starts at, or the end of a text that has no
more than `i`. -/
def offset (text : List Char) (i : Nat) : Nat :=
  (encode (text.take i)).length

/-- Byte `n` of a text, or its end if that comes before, stands in front of the character
of number `i`. -/
def Precedes (text : List Char) (n i : Nat) : Prop :=
  min n (encode text).length = offset text i

instance (text : List Char) (n i : Nat) : Decidable (Precedes text n i) :=
  inferInstanceAs (Decidable (_ = _))

theorem offset_add (text : List Char) (i k : Nat) :
    offset text (i + k) = offset text i + (encode ((text.drop i).take k)).length := by
  rw [offset, List.take_add, encode_append, List.length_append, offset]

theorem drop_offset (text : List Char) (i : Nat) :
    (encode text).drop (offset text i) = encode (text.drop i) := by
  have hsplit : encode text = encode (text.take i) ++ encode (text.drop i) := by
    rw [← encode_append, List.take_append_drop]
  rw [hsplit]
  exact List.drop_left

end Utf8

namespace Cst

/-! ## Ranges of bytes -/

/-- A range is clipped to the source. -/
theorem slice_min (bytes : List UInt8) (start stop : Nat) :
    slice bytes (min start bytes.length) (min stop bytes.length) = slice bytes start stop := by
  unfold slice
  by_cases hstart : start ≤ bytes.length
  · rw [Nat.min_eq_left hstart, List.take_eq_take_iff, List.length_drop]
    omega
  · rw [List.drop_eq_nil_of_le (by omega), List.drop_eq_nil_of_le (by omega)]
    simp

/-- Ranges that adjoin each other. -/
theorem slice_append (bytes : List UInt8) {start middle stop : Nat} (hstart : start ≤ middle)
    (hstop : middle ≤ stop) :
    slice bytes start middle ++ slice bytes middle stop = slice bytes start stop := by
  have hmiddle : bytes.drop middle = (bytes.drop start).drop (middle - start) := by
    rw [List.drop_drop]
    congr 1
    omega
  have hlength : stop - start = (middle - start) + (stop - middle) := by omega
  unfold slice
  rw [hlength, List.take_add, hmiddle]

/-- The bytes between two characters are those of the characters in between. -/
theorem slice_encode {text : List Char} {start stop i j : Nat}
    (hstart : Utf8.Precedes text start i) (hstop : Utf8.Precedes text stop j) :
    slice (Utf8.encode text) start stop = Utf8.encode ((text.drop i).take (j - i)) := by
  rw [← slice_min, hstart, hstop]
  unfold slice
  rw [Utf8.drop_offset]
  by_cases hij : i ≤ j
  · obtain ⟨k, rfl⟩ := Nat.exists_eq_add_of_le hij
    rw [Utf8.offset_add, Nat.add_sub_cancel_left, Nat.add_sub_cancel_left]
    have hsplit : Utf8.encode (text.drop i) =
        Utf8.encode ((text.drop i).take k) ++ Utf8.encode ((text.drop i).drop k) := by
      rw [← Utf8.encode_append, List.take_append_drop]
    rw [hsplit]
    exact List.take_left
  · -- The range ends before it begins.
    obtain ⟨k, rfl⟩ := Nat.exists_eq_add_of_le (Nat.le_of_not_le hij)
    have hback : Utf8.offset text j - Utf8.offset text (j + k) = 0 := by
      rw [Utf8.offset_add]
      omega
    have hnone : j - (j + k) = 0 := by omega
    rw [hback, hnone, List.take_zero, List.take_zero]
    rfl

/-! ## The text of a node -/

/-- The range of a node, clipped to the source, goes from the character of number `i` up
to that of number `j`. -/
structure Covers (text : List Char) (c : Cst) (i j : Nat) : Prop where
  start : Utf8.Precedes text c.info.startByte i
  stop : Utf8.Precedes text c.info.endByte j

variable {text : List Char} {c d e : Cst} {i j k : Nat}

theorem chars_of_covers (h : Covers text c i j) :
    c.chars (Utf8.encode text) = (text.drop i).take (j - i) := by
  rw [chars, slice_encode h.start h.stop, Utf8.decode_encode]

theorem chars_of_empty (source : List UInt8) (h : c.info.endByte ≤ c.info.startByte) :
    c.chars source = [] := by
  have hnone : c.info.endByte - c.info.startByte = 0 := by omega
  rw [chars, slice, hnone, List.take_zero]
  rfl

/-- A range that goes on behind the source ends with it. -/
theorem covers_of_length_le (h : Utf8.Precedes text c.info.startByte i)
    (hstop : (Utf8.encode text).length ≤ c.info.endByte) : Covers text c i text.length := by
  refine ⟨h, ?_⟩
  show min c.info.endByte (Utf8.encode text).length = Utf8.offset text text.length
  rw [Nat.min_eq_right hstop, Utf8.offset, List.take_length]

/-- Nodes side by side cover what one node over both of them covers. -/
theorem chars_append (hc : Covers text c i j) (hd : Covers text d j k)
    (hadjoin : c.info.endByte = d.info.startByte) (hcle : c.info.startByte ≤ c.info.endByte)
    (hdle : d.info.startByte ≤ d.info.endByte) (hstart : e.info.startByte = c.info.startByte)
    (hstop : e.info.endByte = d.info.endByte) :
    c.chars (Utf8.encode text) ++ d.chars (Utf8.encode text) = e.chars (Utf8.encode text) := by
  have hslice := slice_append (Utf8.encode text) hcle (hadjoin ▸ hdle)
  rw [slice_encode hc.start hc.stop, hadjoin, slice_encode hd.start hd.stop,
    ← Utf8.encode_append] at hslice
  rw [chars_of_covers hc, chars_of_covers hd, chars, hstart, hstop, ← hslice,
    Utf8.decode_encode]

/-- **Read back.** If the range of a node begins and ends between characters of a text,
its text over the bytes of the whole is the piece in between: nothing if it ends before it
begins, and no more than there is. The texts of nodes side by side make up the text of one
over both. Any bytes at all can be read, in one way, and what is read is written as the same
bytes exactly if these were well-formed. -/
theorem text_read_back :
    (∀ (text : List Char) (c : Cst) (i j : Nat), Covers text c i j →
      c.text (Utf8.encode text) = String.ofList ((text.drop i).take (j - i))) ∧
    (∀ (source : List UInt8) (c : Cst), c.info.endByte ≤ c.info.startByte →
      c.text source = "") ∧
    (∀ (text : List Char) (c : Cst) (i : Nat), Utf8.Precedes text c.info.startByte i →
      (Utf8.encode text).length ≤ c.info.endByte →
      c.text (Utf8.encode text) = String.ofList (text.drop i)) ∧
    (∀ (text : List Char) (c d e : Cst) (i j k : Nat), Covers text c i j → Covers text d j k →
      c.info.endByte = d.info.startByte → c.info.startByte ≤ c.info.endByte →
      d.info.startByte ≤ d.info.endByte → e.info.startByte = c.info.startByte →
      e.info.endByte = d.info.endByte →
      c.text (Utf8.encode text) ++ d.text (Utf8.encode text) = e.text (Utf8.encode text)) ∧
    (∀ (bytes : List UInt8) (read : List Char),
      Utf8.Reads bytes read ↔ read = Utf8.decode bytes) ∧
    ∀ bytes : List UInt8, Utf8.encode (Utf8.decode bytes) = bytes ↔ Utf8.WellFormed bytes := by
  refine ⟨?_, ?_, ?_, ?_, fun bytes read => Utf8.reads_iff, fun bytes => Utf8.encode_decode_iff⟩
  · intro text c i j h
    rw [Cst.text, chars_of_covers h]
  · intro source c h
    rw [Cst.text, chars_of_empty source h, String.ofList_nil]
  · intro text c i h hstop
    rw [Cst.text, chars_of_covers (covers_of_length_le h hstop), ← List.length_drop,
      List.take_length]
  · intro text c d e i j k hc hd hadjoin hcle hdle hstart hstop
    rw [Cst.text, Cst.text, Cst.text, ← String.ofList_append,
      chars_append hc hd hadjoin hcle hdle hstart hstop]

/-- A letter, one with an accent, a currency sign and a face: characters of one byte, two,
three and four. -/
def mixedWidths : List Char := ['a', 'é', '€', '😀']

/-- A word that covers a range of bytes. -/
def wordOver (start stop : Nat) : Cst :=
  .mk { type := "identifier", startByte := start, endByte := stop } []

/-- Two words side by side, the second of which goes on behind the end; and a surrogate,
which no character is written as, read as three ill-formed pieces. -/
theorem text_read_back_mixedWidths :
    let source := Utf8.encode mixedWidths
    let surrogate : List UInt8 := [0xED, 0xA0, 0x80]
    Covers mixedWidths (wordOver 1 6) 1 3 ∧ Covers mixedWidths (wordOver 6 99) 3 4 ∧
    (wordOver 1 6).text source = "é€" ∧ (wordOver 6 99).text source = "😀" ∧
    (wordOver 6 1).text source = "" ∧
    (wordOver 1 6).text source ++ (wordOver 6 99).text source = (wordOver 1 99).text source ∧
    Utf8.Reads surrogate [Utf8.replacement, Utf8.replacement, Utf8.replacement] ∧
    ¬ Utf8.WellFormed surrogate := by
  intro source surrogate
  obtain ⟨hcovered, hempty, hclipped, hadjacent, hread, hkept⟩ := text_read_back
  have hfirst : Covers mixedWidths (wordOver 1 6) 1 3 := ⟨by decide, by decide⟩
  have hsecond : Covers mixedWidths (wordOver 6 99) 3 4 := ⟨by decide, by decide⟩
  refine ⟨hfirst, hsecond, hcovered _ _ _ _ hfirst, hclipped _ _ _ hsecond.start (by decide),
    hempty _ _ (by decide), ?_, (hread _ _).2 (by decide), ?_⟩
  · exact hadjacent _ _ _ _ _ _ _ hfirst hsecond rfl (by decide) (by decide) rfl rfl
  · intro hvalid
    exact absurd ((hkept _).2 hvalid) (by decide)

end Cst

end RubySmells
