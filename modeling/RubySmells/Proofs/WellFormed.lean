import Mathlib.Data.List.Forall2
import RubySmells.Proofs.Decoding

/-!
# Well-formed bytes

Bytes are valid UTF-8 if they are made up of sequences that each lie in one row of a table
of ranges (`Utf8.WellFormed`). The table is that of the standard; it says nothing of values.

* **the table** — the sequences in it are exactly the forms of characters
  (`Utf8.isForm_iff`), so well-formed bytes are those of a text
  (`Utf8.wellFormed_iff`);
* **what reading keeps** — a reading is written as the bytes it was read from exactly if
  these were well-formed (`Utf8.encode_decode_iff`).
-/

namespace RubySmells.Utf8

/-! ## The table -/

/-- A range of bytes, both ends included. -/
abbrev Range := UInt8 × UInt8

/-- The byte lies in the range. -/
def InRange (range : Range) (b : UInt8) : Prop :=
  range.1 ≤ b ∧ b ≤ range.2

/-- The bytes that may stand at each place of a sequence. -/
def forms : List (List Range) :=
  [[(0x00, 0x7F)],
    [(0xC2, 0xDF), (0x80, 0xBF)],
    [(0xE0, 0xE0), (0xA0, 0xBF), (0x80, 0xBF)],
    [(0xE1, 0xEC), (0x80, 0xBF), (0x80, 0xBF)],
    [(0xED, 0xED), (0x80, 0x9F), (0x80, 0xBF)],
    [(0xEE, 0xEF), (0x80, 0xBF), (0x80, 0xBF)],
    [(0xF0, 0xF0), (0x90, 0xBF), (0x80, 0xBF), (0x80, 0xBF)],
    [(0xF1, 0xF3), (0x80, 0xBF), (0x80, 0xBF), (0x80, 0xBF)],
    [(0xF4, 0xF4), (0x80, 0x8F), (0x80, 0xBF), (0x80, 0xBF)]]

/-- A sequence that lies in a row of the table. -/
def IsForm (seq : List UInt8) : Prop :=
  ∃ form ∈ forms, List.Forall₂ InRange form seq

/-- Bytes that are valid as they stand. -/
inductive WellFormed : List UInt8 → Prop
  | nil : WellFormed []
  | append {seq rest : List UInt8} : IsForm seq → WellFormed rest → WellFormed (seq ++ rest)

/-! ## From the table to characters -/

/-- What an open sequence still needs. -/
def Pending.ranges (p : Pending) : List Range :=
  (p.low, p.high) :: List.replicate p.later (0x80, 0xBF)

/-- Whatever lies in the ranges completes an open sequence. -/
theorem Pending.After.exists_of_ranges {p : Pending} {read seq : List UInt8}
    (h : p.After read) (hseq : List.Forall₂ InRange p.ranges seq) :
    ∃ c, String.utf8EncodeChar c = read ++ seq := by
  generalize hlater : p.later = n
  induction n generalizing p read seq with
  | zero =>
      rw [Pending.ranges, hlater] at hseq
      obtain ⟨b, bs, ⟨hlow, hhigh⟩, hbs, rfl⟩ := List.forall₂_cons_left_iff.1 hseq
      obtain rfl := List.forall₂_nil_left_iff.1 hbs
      exact ⟨_, h.encodeChar_last hlow hhigh hlater⟩
  | succ n ih =>
      rw [Pending.ranges, hlater] at hseq
      obtain ⟨b, bs, ⟨hlow, hhigh⟩, hbs, rfl⟩ := List.forall₂_cons_left_iff.1 hseq
      obtain ⟨c, hc⟩ := ih (h.next hlow hhigh hlater) hbs rfl
      rw [List.append_assoc] at hc
      exact ⟨c, hc⟩

/-- A row is the range of a first byte and what it leaves open. -/
theorem exists_of_opened {first : Range} {ranges : List Range} {seq : List UInt8}
    (hseq : List.Forall₂ InRange (first :: ranges) seq)
    (hopen : ∀ b : UInt8, first.1.toNat ≤ b.toNat → b.toNat ≤ first.2.toNat →
      ∃ p : Pending, p.OpenedBy b ∧ p.ranges = ranges) :
    ∃ c, String.utf8EncodeChar c = seq := by
  obtain ⟨b, bs, ⟨hlow, hhigh⟩, hbs, rfl⟩ := List.forall₂_cons_left_iff.1 hseq
  rw [UInt8.le_iff_toNat_le] at hlow hhigh
  obtain ⟨p, hp, rfl⟩ := hopen b hlow hhigh
  exact hp.after.exists_of_ranges hbs

theorem IsForm.exists_encodeChar {seq : List UInt8} (h : IsForm seq) :
    ∃ c, String.utf8EncodeChar c = seq := by
  obtain ⟨form, hform, hseq⟩ := h
  simp only [forms, List.mem_cons, List.not_mem_nil, or_false] at hform
  rcases hform with rfl | rfl | rfl | rfl | rfl | rfl | rfl | rfl | rfl
  · obtain ⟨b, bs, ⟨-, hhigh⟩, hbs, rfl⟩ := List.forall₂_cons_left_iff.1 hseq
    obtain rfl := List.forall₂_nil_left_iff.1 hbs
    rw [UInt8.le_iff_toNat_le] at hhigh
    have hsmall : b.toNat ≤ 0x7F := hhigh
    exact ⟨_, encodeChar_of_single (by omega)⟩
  · refine exists_of_opened hseq fun b (hlow : 0xC2 ≤ b.toNat) (hhigh : b.toNat ≤ 0xDF) => ?_
    exact ⟨_, .free_one hlow (by omega), rfl⟩
  · refine exists_of_opened hseq fun b (hlow : 0xE0 ≤ b.toNat) (hhigh : b.toNat ≤ 0xE0) => ?_
    exact ⟨_, .of_E0 (by omega), rfl⟩
  · refine exists_of_opened hseq fun b (hlow : 0xE1 ≤ b.toNat) (hhigh : b.toNat ≤ 0xEC) => ?_
    exact ⟨_, .free_two (by omega) (by omega) (by omega), rfl⟩
  · refine exists_of_opened hseq fun b (hlow : 0xED ≤ b.toNat) (hhigh : b.toNat ≤ 0xED) => ?_
    exact ⟨_, .of_ED (by omega), rfl⟩
  · refine exists_of_opened hseq fun b (hlow : 0xEE ≤ b.toNat) (hhigh : b.toNat ≤ 0xEF) => ?_
    exact ⟨_, .free_two (by omega) (by omega) (by omega), rfl⟩
  · refine exists_of_opened hseq fun b (hlow : 0xF0 ≤ b.toNat) (hhigh : b.toNat ≤ 0xF0) => ?_
    exact ⟨_, .of_F0 (by omega), rfl⟩
  · refine exists_of_opened hseq fun b (hlow : 0xF1 ≤ b.toNat) (hhigh : b.toNat ≤ 0xF3) => ?_
    exact ⟨_, .free_three (by omega) (by omega), rfl⟩
  · refine exists_of_opened hseq fun b (hlow : 0xF4 ≤ b.toNat) (hhigh : b.toNat ≤ 0xF4) => ?_
    exact ⟨_, .of_F4 (by omega), rfl⟩

/-! ## From characters to the table -/

theorem inRange_continuation (v k : Nat) : InRange (0x80, 0xBF) (continuation v k) := by
  constructor
  · rw [UInt8.le_iff_toNat_le, toNat_continuation]
    show 0x80 ≤ v / 64 ^ k % 64 + 0x80
    omega
  · rw [UInt8.le_iff_toNat_le, toNat_continuation]
    show v / 64 ^ k % 64 + 0x80 ≤ 0xBF
    omega

theorem ranges_continuations (v n : Nat) :
    List.Forall₂ InRange (List.replicate n (0x80, 0xBF)) (continuations v n) := by
  induction n with
  | zero => exact .nil
  | succ n ih => exact .cons (inRange_continuation v n) ih

/-- The missing bytes of a value that an open sequence admits. -/
theorem Pending.Admits.ranges {p : Pending} {v : Nat} (h : p.Admits v) :
    List.Forall₂ InRange p.ranges (continuations v (p.later + 1)) := by
  obtain ⟨-, hlow, hhigh⟩ := h
  rw [← toNat_continuation, ← UInt8.le_iff_toNat_le] at hlow hhigh
  exact .cons ⟨hlow, hhigh⟩ (ranges_continuations v p.later)

theorem exists_form_of_row {b : UInt8} {p : Pending} (first second : Range) (n : Nat)
    (hrow : first :: second :: List.replicate n (0x80, 0xBF) ∈ forms)
    (hge : first.1.toNat ≤ b.toNat) (hle : b.toNat ≤ first.2.toNat) (hlater : p.later = n)
    (hlow : p.low.toNat = second.1.toNat) (hhigh : p.high.toNat = second.2.toNat) :
    ∃ first, InRange first b ∧ first :: p.ranges ∈ forms := by
  refine ⟨first, ⟨UInt8.le_iff_toNat_le.2 hge, UInt8.le_iff_toNat_le.2 hle⟩, ?_⟩
  rw [Pending.ranges, hlater, UInt8.toNat_inj.1 hlow, UInt8.toNat_inj.1 hhigh]
  exact hrow

/-- What a first byte leaves open is, behind the range of the first byte, a row. -/
theorem Pending.OpenedBy.exists_form {b : UInt8} {p : Pending} (h : p.OpenedBy b) :
    ∃ first, InRange first b ∧ first :: p.ranges ∈ forms := by
  cases h with
  | one hlater hb hge hlt hlow hhigh =>
      exact exists_form_of_row (0xC2, 0xDF) (0x80, 0xBF) 0 (by decide)
        (show 0xC2 ≤ b.toNat by omega) (show b.toNat ≤ 0xDF by omega) hlater hlow hhigh
  | two hlater hb hlt hlow hhigh =>
      rcases hlow with ⟨hvalue, hlow⟩ | ⟨hvalue, hlow⟩
      · exact exists_form_of_row (0xE0, 0xE0) (0xA0, 0xBF) 1 (by decide)
          (show 0xE0 ≤ b.toNat by omega) (show b.toNat ≤ 0xE0 by omega) hlater hlow
          (show p.high.toNat = 0xBF by omega)
      rcases hhigh with ⟨hvalue', hhigh⟩ | ⟨hvalue', hhigh⟩
      · exact exists_form_of_row (0xED, 0xED) (0x80, 0x9F) 1 (by decide)
          (show 0xED ≤ b.toNat by omega) (show b.toNat ≤ 0xED by omega) hlater hlow hhigh
      by_cases hless : p.value < 0xD
      · exact exists_form_of_row (0xE1, 0xEC) (0x80, 0xBF) 1 (by decide)
          (show 0xE1 ≤ b.toNat by omega) (show b.toNat ≤ 0xEC by omega) hlater hlow hhigh
      · exact exists_form_of_row (0xEE, 0xEF) (0x80, 0xBF) 1 (by decide)
          (show 0xEE ≤ b.toNat by omega) (show b.toNat ≤ 0xEF by omega) hlater hlow hhigh
  | three hlater hb hlt hlow hhigh =>
      rcases hlow with ⟨hvalue, hlow⟩ | ⟨hvalue, hlow⟩
      · exact exists_form_of_row (0xF0, 0xF0) (0x90, 0xBF) 2 (by decide)
          (show 0xF0 ≤ b.toNat by omega) (show b.toNat ≤ 0xF0 by omega) hlater hlow
          (show p.high.toNat = 0xBF by omega)
      rcases hhigh with ⟨hvalue', hhigh⟩ | ⟨hvalue', hhigh⟩
      · exact exists_form_of_row (0xF4, 0xF4) (0x80, 0x8F) 2 (by decide)
          (show 0xF4 ≤ b.toNat by omega) (show b.toNat ≤ 0xF4 by omega) hlater hlow hhigh
      · exact exists_form_of_row (0xF1, 0xF3) (0x80, 0xBF) 2 (by decide)
          (show 0xF1 ≤ b.toNat by omega) (show b.toNat ≤ 0xF3 by omega) hlater hlow hhigh

theorem isForm_encodeChar (c : Char) : IsForm (String.utf8EncodeChar c) := by
  cases hc : String.utf8EncodeChar c with
  | nil => exact absurd hc String.utf8EncodeChar_ne_nil
  | cons b bs =>
      have hlead := Lead.saidBy_ofByte b
      generalize Lead.ofByte b = lead at hlead
      cases hlead with
      | single hsmall =>
          have happ : String.utf8EncodeChar (Char.ofNat b.toNat) ++ bs =
              String.utf8EncodeChar c ++ [] := by
            rw [encodeChar_of_single hsmall, hc, List.append_nil]
            rfl
          obtain ⟨-, rfl⟩ := encodeChar_append_inj happ
          refine ⟨[(0x00, 0x7F)], by decide, .cons ⟨?_, ?_⟩ .nil⟩
          · exact UInt8.le_iff_toNat_le.2 (Nat.zero_le _)
          · exact UInt8.le_iff_toNat_le.2 (show b.toNat ≤ 0x7F by omega)
      | opening hopen =>
          obtain ⟨hadmits, rfl⟩ := hopen.after.encodeChar_iff.1 hc
          obtain ⟨first, hfirst, hform⟩ := hopen.exists_form
          exact ⟨_, hform, .cons hfirst hadmits.ranges⟩
      | stray hstray => exact absurd hc (hstray.encodeChar_ne c bs)

/-- **The table.** The sequences that lie in a row are the forms of the characters. -/
theorem isForm_iff {seq : List UInt8} :
    IsForm seq ↔ ∃ c, String.utf8EncodeChar c = seq := by
  constructor
  · intro h
    exact h.exists_encodeChar
  · rintro ⟨c, rfl⟩
    exact isForm_encodeChar c

/-! ## Well-formed bytes are those of a text -/

theorem wellFormed_iff {bytes : List UInt8} :
    WellFormed bytes ↔ ∃ text, encode text = bytes := by
  constructor
  · intro h
    induction h with
    | nil => exact ⟨[], rfl⟩
    | append hseq _ ih =>
        obtain ⟨c, rfl⟩ := isForm_iff.1 hseq
        obtain ⟨text, rfl⟩ := ih
        exact ⟨c :: text, rfl⟩
  · rintro ⟨text, rfl⟩
    induction text with
    | nil => exact .nil
    | cons c text ih => exact .append (isForm_iff.2 ⟨c, rfl⟩) ih

/-- **What reading keeps.** Writing what was read gives back the bytes exactly if they
were well-formed. -/
theorem encode_decode_iff {bytes : List UInt8} :
    encode (decode bytes) = bytes ↔ WellFormed bytes := by
  rw [wellFormed_iff]
  constructor
  · intro h
    exact ⟨decode bytes, h⟩
  · rintro ⟨text, rfl⟩
    rw [decode_encode]

end RubySmells.Utf8
