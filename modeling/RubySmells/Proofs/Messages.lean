import Mathlib.Data.List.Chain
import Mathlib.Data.List.DropRight
import RubySmells.Proofs.FirstFault
import RubySmells.Proofs.Quoting

/-!
# What is said about a malformed source

The message names the place, and quotes the start of the piece at fault if that is more
than blanks.

* **the excerpt** — there is one exactly if some character is no blank; then it starts with
  one that is none, and is the first line of the trimmed text or the start of it
  (`Text.excerpt?_cases`);
* **the message** — all of it stands on one line, and it quotes exactly if there is an
  excerpt (`Cause.message_quoted`, `Cause.not_near_infix_place`).
-/

namespace RubySmells

namespace Text

/-! ## The excerpt -/

/-- What a message shows of a text: the start of its first line. -/
structure IsExcerpt (text shown : List Char) : Prop where
  starts : ∃ c cs, shown = c :: cs ∧ isBlank c = false
  length_le : shown.length ≤ 40
  on_one_line : ∀ c ∈ shown, isLineBreak c = false
  begins : shown <+: trim text

variable {text shown : List Char}

theorem IsExcerpt.ne_nil (h : IsExcerpt text shown) : shown ≠ [] := by
  obtain ⟨c, cs, rfl, -⟩ := h.starts
  exact List.cons_ne_nil c cs

theorem trim_eq_nil_iff : trim text = [] ↔ ∀ c ∈ text, isBlank c = true := by
  show (text.dropWhile isBlank).rdropWhile isBlank = [] ↔ _
  rw [List.rdropWhile_eq_nil_iff]
  constructor
  · intro h c hc
    rw [← List.takeWhile_append_dropWhile (p := isBlank) (l := text)] at hc
    rcases List.mem_append.1 hc with hc | hc
    · exact List.mem_takeWhile_imp hc
    · exact h c hc
  · intro h c hc
    exact h c ((List.dropWhile_sublist isBlank).subset hc)

/-- A trimmed text does not start with a blank. -/
theorem isBlank_of_trim_eq_cons {c : Char} {cs : List Char} (h : trim text = c :: cs) :
    isBlank c = false := by
  have hbegins : trim text <+: text.dropWhile isBlank := List.rdropWhile_prefix isBlank _
  rw [h] at hbegins
  obtain ⟨rest, hrest⟩ := hbegins
  have hne : text.dropWhile isBlank ≠ [] := by
    rw [← hrest]
    simp
  have hhead := List.head_dropWhile_not isBlank hne
  simpa [← hrest] using hhead

/-- Of blanks there is no excerpt, and of anything else there is one. -/
theorem excerpt?_cases (text : List Char) :
    excerpt? text = none ∧ (∀ c ∈ text, isBlank c = true) ∨
      ∃ shown, excerpt? text = some shown ∧ IsExcerpt text shown ∧
        ∃ c ∈ text, isBlank c = false := by
  rw [excerpt?]
  cases htrim : trim text with
  | nil => exact .inl ⟨rfl, trim_eq_nil_iff.1 htrim⟩
  | cons c cs =>
      have hblank := isBlank_of_trim_eq_cons htrim
      have hbreak : isLineBreak c = false := by
        cases hc : isLineBreak c with
        | false => rfl
        | true => exact absurd (isBlank_of_isLineBreak hc) (by simp [hblank])
      have hstarts : (firstLine (c :: cs)).take excerptLimit =
          c :: (firstLine cs).take 39 := by
        rw [firstLine, List.takeWhile_cons_of_pos (by simp [hbreak])]
        rfl
      refine .inr ⟨_, rfl, ⟨⟨c, _, hstarts, hblank⟩, List.length_take_le _ _, ?_, ?_⟩, ?_⟩
      · intro d hd
        have hd := List.mem_takeWhile_imp (List.mem_of_mem_take hd)
        simpa using hd
      · rw [htrim]
        exact (List.take_prefix _ _).trans (List.takeWhile_prefix _)
      · by_contra hnone
        have hall : ∀ c ∈ text, isBlank c = true := by
          intro d hd
          cases hd' : isBlank d with
          | true => rfl
          | false => exact absurd ⟨d, hd, hd'⟩ hnone
        rw [trim_eq_nil_iff.2 hall] at htrim
        exact absurd htrim (by simp)

end Text

/-! ## The message -/

namespace Cause

/-- The words for a place. -/
def place (line column : Int) : String := message (.malformed line column none)

/-- A text that is not empty is quoted behind the place. -/
theorem message_quoted {shown : List Char} (h : shown ≠ []) (line column : Int) :
    message (.malformed line column (some (String.ofList shown))) =
      place line column ++ " near " ++ String.ofList (Text.Quoted.encode shown) := by
  have hkept : (some (String.ofList shown)).filter (· ≠ "") = some (String.ofList shown) := by
    rw [Option.filter_some, if_pos]
    simpa [String.ofList_eq_empty_iff] using h
  rw [message, hkept]
  show place line column ++ " near " ++
    String.ofList (Text.Quoted.encode (String.ofList shown).toList) = _
  rw [String.toList_ofList]

/-- The words for a place, character by character. -/
theorem toList_place (line column : Nat) :
    (place line column).toList = "syntax error at line ".toList ++ Nat.toDigits 10 line ++
      ", column ".toList ++ Nat.toDigits 10 column := by
  have hplace : place line column =
      "syntax error at line " ++ line.repr ++ ", column " ++ column.repr := rfl
  rw [hplace, String.toList_append, String.toList_append, String.toList_append,
    Nat.toList_repr, Nat.toList_repr]

/-- A digit of a number in base ten. -/
theorem toNat_of_mem_toDigits {c : Char} {n : Nat} (h : c ∈ Nat.toDigits 10 n) :
    0x30 ≤ c.toNat ∧ c.toNat ≤ 0x39 := by
  have hdigit := Nat.isDigit_of_mem_toDigits (by decide) (by decide) h
  rw [Char.isDigit, Bool.and_eq_true, decide_eq_true_eq, decide_eq_true_eq, ge_iff_le,
    UInt32.le_iff_toNat_le, UInt32.le_iff_toNat_le] at hdigit
  exact hdigit

theorem isLineBreak_of_mem_toDigits {c : Char} {n : Nat} (h : c ∈ Nat.toDigits 10 n) :
    Text.isLineBreak c = false := by
  have hdigit := toNat_of_mem_toDigits h
  simp only [Text.isLineBreak, Bool.or_eq_false_iff, Bool.and_eq_false_iff,
    decide_eq_false_iff_not, beq_eq_false_iff_ne]
  omega

theorem isLineBreak_of_mem_place {line column : Nat} {c : Char}
    (h : c ∈ (place line column).toList) : Text.isLineBreak c = false := by
  rw [toList_place] at h
  rcases List.mem_append.1 h with h | h
  · rcases List.mem_append.1 h with h | h
    · rcases List.mem_append.1 h with h | h
      · exact Text.Quoted.isLineBreak_of_mem (by decide) h
      · exact isLineBreak_of_mem_toDigits h
    · exact Text.Quoted.isLineBreak_of_mem (by decide) h
  · exact isLineBreak_of_mem_toDigits h

/-- With a quoted text behind it, the place still stands on one line. -/
theorem isLineBreak_of_mem_quoted {line column : Nat} {shown : List Char} {c : Char}
    (h : c ∈ (place line column ++ " near " ++
      String.ofList (Text.Quoted.encode shown)).toList) : Text.isLineBreak c = false := by
  rw [String.toList_append, String.toList_append] at h
  rcases List.mem_append.1 h with h | h
  · rcases List.mem_append.1 h with h | h
    · exact isLineBreak_of_mem_place h
    · exact Text.Quoted.isLineBreak_of_mem (by decide) h
  · rw [String.toList_ofList] at h
    exact Text.Quoted.isLineBreak_of_mem_encode h

/-- Two characters that do not stand for the middle of `near`. -/
def Apart (c d : Char) : Prop := ¬ (c = 'e' ∧ d = 'a')

instance (c d : Char) : Decidable (Apart c d) := inferInstanceAs (Decidable (¬ _))

theorem apart_of_mem_toDigits (c : Char) {d : Char} {n : Nat} (h : d ∈ Nat.toDigits 10 n) :
    Apart c d := by
  rintro ⟨-, rfl⟩
  have hdigit := toNat_of_mem_toDigits h
  exact absurd hdigit (by decide)

theorem isChain_toDigits (n : Nat) : (Nat.toDigits 10 n).IsChain Apart := by
  rw [List.isChain_iff_getElem]
  intro i hi
  exact apart_of_mem_toDigits _ (List.getElem_mem hi)

/-- Nowhere in the words for a place does it say `near`. -/
theorem not_near_infix_place (line column : Nat) :
    ¬ " near ".toList <:+: (place line column).toList := by
  intro hnear
  have hplace : (place line column).toList.IsChain Apart := by
    have hhead : ∀ (n : Nat) (c : Char), ∀ d ∈ (Nat.toDigits 10 n).head?, Apart c d :=
      fun n c d hd => apart_of_mem_toDigits c (List.mem_of_mem_head? hd)
    rw [toList_place, List.isChain_append, List.isChain_append, List.isChain_append]
    refine ⟨⟨⟨by decide, isChain_toDigits line, fun c _ => hhead line c⟩, by decide, ?_⟩,
      isChain_toDigits column, fun c _ => hhead column c⟩
    intro c _ d hd
    obtain rfl : ',' = d := by simpa using hd
    rintro ⟨-, h⟩
    exact absurd h (by decide)
  have hchain : " near ".toList.IsChain Apart := List.IsChain.infix hplace hnear
  exact absurd hchain (by decide)

end Cause

namespace Source

/-- **One line.** What is said about a malformed source stands on one line. It quotes a
piece of the source exactly if there is more than blanks at the fault, and what is quoted is
read back as an excerpt of what stands there. -/
theorem fault_told_on_one_line (grammar : Grammar) (path : String) (source : List UInt8)
    (h : (grammar source).hasError = true) :
    let fault := (grammar source).root.firstFault
    let text := fault.chars source
    let place := Cause.place fault.line (fault.info.column + 1)
    ∃ cause, Source.parse grammar path source = .error ⟨path, cause⟩ ∧
      Failure.render ⟨path, cause⟩ = path ++ ": " ++ cause.message ∧
      (∀ c ∈ cause.message.toList, Text.isLineBreak c = false) ∧
      (" near ".toList <:+: cause.message.toList ↔ ∃ c ∈ text, Text.isBlank c = false) ∧
      (cause.message = place ∧ (∀ c ∈ text, Text.isBlank c = true) ∨
        ∃ literal shown, cause.message = place ++ " near " ++ String.ofList literal ∧
          Text.Quoted.decode literal = some shown ∧ Text.IsExcerpt text shown) := by
  intro fault text place
  refine ⟨Source.malformed source fault, Source.parse_of_hasError h path, rfl, ?_⟩
  rcases Text.excerpt?_cases text with ⟨hnone, hblank⟩ | ⟨shown, hshown, hexcerpt, hsome⟩
  · have hmessage : (Source.malformed source fault).message = place := by
      rw [Source.malformed, hnone]
      rfl
    rw [hmessage]
    refine ⟨fun c hc => Cause.isLineBreak_of_mem_place hc, ?_, .inl ⟨rfl, hblank⟩⟩
    constructor
    · intro hnear
      exact absurd hnear (Cause.not_near_infix_place (fault.info.row + 1) (fault.info.column + 1))
    · rintro ⟨c, hc, hc'⟩
      rw [hblank c hc] at hc'
      exact absurd hc' (by simp)
  · have hmessage : (Source.malformed source fault).message =
        place ++ " near " ++ String.ofList (Text.Quoted.encode shown) := by
      rw [Source.malformed, hshown]
      exact Cause.message_quoted hexcerpt.ne_nil _ _
    rw [hmessage]
    refine ⟨fun c hc => Cause.isLineBreak_of_mem_quoted hc, ?_,
      .inr ⟨_, shown, rfl, Text.Quoted.decode_encode shown, hexcerpt⟩⟩
    refine ⟨fun _ => hsome, fun _ => ?_⟩
    rw [String.toList_append, String.toList_append]
    exact List.infix_append _ _ _

/-- A blank, a line separator, a letter, both quotation marks with a byte between them that
is no text, a next line, and another letter. -/
def strayMarks : List UInt8 :=
  [0x20, 0xE2, 0x80, 0xA8, 0x61, 0x27, 0xFF, 0x22, 0xC2, 0x85, 0x62]

/-- A grammar that makes nothing of a source. -/
def helpless : Grammar := fun source =>
  { root := .mk { type := "ERROR", endByte := source.length } [], hasError := true }

/-- The blanks in front are left out, and the line ends at the next one. -/
theorem fault_told_on_one_line_strayMarks :
    let text : List Char :=
      [' ', Char.ofNat 0x2028, 'a', '\'', Utf8.replacement, '"', Char.ofNat 0x85, 'b']
    (helpless strayMarks).hasError = true ∧
    (helpless strayMarks).root.firstFault.chars strayMarks = text ∧
    ∃ cause literal shown, Source.parse helpless "x.rb" strayMarks = .error ⟨"x.rb", cause⟩ ∧
      cause.message = "syntax error at line 1, column 1" ++ " near " ++ String.ofList literal ∧
      Text.Quoted.decode literal = some shown ∧ Text.IsExcerpt text shown := by
  intro text
  have hfault : (helpless strayMarks).root.firstFault = (helpless strayMarks).root := by
    rw [Cst.firstFault, Cst.visit_singleton]
    rfl
  have htext : (helpless strayMarks).root.firstFault.chars strayMarks = text := by
    rw [hfault]
    decide +kernel
  obtain ⟨cause, hparse, -, -, -, hmessage⟩ :=
    fault_told_on_one_line helpless "x.rb" strayMarks rfl
  rw [htext, hfault] at hmessage
  rcases hmessage with ⟨-, hblank⟩ | ⟨literal, shown, hmessage, hdecode, hexcerpt⟩
  · have ha := hblank 'a' (by decide)
    exact absurd ha (by decide)
  · exact ⟨rfl, htext, cause, literal, shown, hparse, hmessage, hdecode, hexcerpt⟩

end Source

end RubySmells
