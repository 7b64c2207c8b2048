import Mathlib.Data.Nat.Bitwise
import Tetrad.Proofs.Word.RoundTrip

/-!
# Writing a word field by field

A writer puts one field after another into a word and keeps a record of the bits that each of them
takes. Encoding field by field gives the packed word (`Instruction.write_eq_encode`). The recorded
spans tile the word from its first bit on (`Span.Tiled`), so that none leaves it and no two share a
bit, also where a label ends the writing (`Instruction.sound_write`).
-/

namespace Tetrad

/-- The bits of a field in a word: the first of them, counted from the most significant one, and
their number. -/
structure Span where
  start : Nat
  width : Nat
deriving DecidableEq, Repr, Inhabited

namespace Span

/-- The number that a value is in the bits of the span, cut to their number. -/
def place (span : Span) (value : Nat) : Nat :=
  (value % (1 <<< span.width)) <<< (32 - span.start - span.width)

/-- Whatever stands in the one span and in the other, they have no bit in common. -/
def Apart (a b : Span) : Prop := ∀ x y, a.place x &&& b.place y = 0

/-- The span ends inside the word. Neither the shift between its place and the low end of the word
nor the one that makes its mask reaches the bits of a word. -/
structure Inside (span : Span) : Prop where
  ends : span.start + span.width ≤ 32
  shifted : 32 - span.start - span.width < 32
  masked : span.width < 32

/-- The spans follow one another without a gap and end before the given bit. None is empty, and none
takes the whole word. -/
inductive Tiled : List Span → Nat → Prop
  | nil : Tiled [] 0
  | concat {spans : List Span} {used width : Nat} (before : Tiled spans used) (pos : 0 < width)
      (narrow : width < 32) : Tiled (spans ++ [⟨used, width⟩]) (used + width)

variable {span earlier later : Span} {spans : List Span} {used : Nat}

theorem place_eq (span : Span) (value : Nat) :
    span.place value = value % 2 ^ span.width * 2 ^ (32 - span.start - span.width) := by
  simp only [place, Nat.shiftLeft_eq, Nat.one_mul]

theorem place_lt (ends : span.start + span.width ≤ 32) (value : Nat) :
    span.place value < 2 ^ (32 - span.start) := by
  have cut : value % 2 ^ span.width < 2 ^ span.width := Nat.mod_lt _ (Nat.two_pow_pos _)
  have room : 2 ^ (32 - span.start) = 2 ^ span.width * 2 ^ (32 - span.start - span.width) := by
    rw [← Nat.pow_add]
    congr 1
    omega
  rw [place_eq, room]
  exact Nat.mul_lt_mul_of_pos_right cut (Nat.two_pow_pos _)

theorem apart_of_le (ordered : earlier.start + earlier.width ≤ later.start)
    (ends : later.start + later.width ≤ 32) : earlier.Apart later := by
  intro x y
  apply Nat.eq_of_testBit_eq
  intro bit
  rw [Nat.testBit_and, Nat.zero_testBit]
  by_cases above : 32 - earlier.start - earlier.width ≤ bit
  · have below : later.place y < 2 ^ bit :=
      Nat.lt_of_lt_of_le (place_lt ends y) (Nat.pow_le_pow_right (by decide) (by omega))
    rw [Nat.testBit_lt_two_pow below, Bool.and_false]
  · rw [place, Nat.testBit_shiftLeft, decide_eq_false above, Bool.false_and, Bool.false_and]

theorem Tiled.of_mem (tiled : Tiled spans used) (member : span ∈ spans) :
    span.start + span.width ≤ used ∧ 0 < span.width ∧ span.width < 32 := by
  induction tiled with
  | nil => cases member
  | @concat spans used width _ pos narrow ih =>
    rcases List.mem_append.mp member with earlier | last
    · obtain ⟨ends, bounds⟩ := ih earlier
      exact ⟨Nat.le_add_right_of_le ends, bounds⟩
    · obtain rfl := List.mem_singleton.mp last
      exact ⟨Nat.le_refl _, pos, narrow⟩

theorem Tiled.inside (tiled : Tiled spans used) (fits : used ≤ 32) :
    ∀ span ∈ spans, span.Inside := by
  intro span member
  obtain ⟨ends, pos, narrow⟩ := tiled.of_mem member
  exact ⟨by omega, by omega, narrow⟩

theorem Tiled.apart (tiled : Tiled spans used) (fits : used ≤ 32) : spans.Pairwise Apart := by
  induction tiled with
  | nil => exact .nil
  | @concat spans used width before _ _ ih =>
    refine List.pairwise_append.mpr ⟨ih (by omega), List.pairwise_singleton _ _, ?_⟩
    intro earlier member last inLast
    obtain rfl := List.mem_singleton.mp inLast
    exact apart_of_le (before.of_mem member).1 fits

end Span

/-- The bits that operands take together. -/
def Operand.widths (operands : List Operand) : Nat :=
  ((operands.map mode).map Mode.width).foldr (· + ·) 0

theorem Operand.widths_cons (operand : Operand) (rest : List Operand) :
    widths (operand :: rest) = operand.mode.width + widths rest := rfl

theorem Instruction.layoutBits_modes (instruction : Instruction) :
    layoutBits instruction.modes = headerWidth + Operand.widths instruction.operands := rfl

/-- A word as far as it is written: its number, the bits that are used, and the span of every field
that was put into it. -/
structure Writer where
  word : Nat
  used : Nat
  spans : List Span
deriving DecidableEq, Repr, Inhabited

namespace Writer

def blank : Writer where
  word := 0
  used := 0
  spans := []

/-- Puts a field, cut to its width, behind the bits that are used. -/
def push (writer : Writer) (field : Field) : Writer where
  word := writer.word ||| Span.place ⟨writer.used, field.width⟩ field.value
  used := writer.used + field.width
  spans := writer.spans ++ [⟨writer.used, field.width⟩]

def write (writer : Writer) (fields : List Field) : Writer := fields.foldl push writer

/-- Puts the fields of operands one after another, up to an operand that has none. -/
def operands (writer : Writer) : List Operand → Except WordError UInt32 × Writer
  | [] => (.ok (UInt32.ofNat writer.word), writer)
  | operand :: rest =>
    match operand.fields? with
    | none => (.error .unresolvedLabel, writer)
    | some fields => (writer.write fields).operands rest

/-- Puts an opcode and a tag into a word. -/
def header (opcode : Opcode) (tag : Nat) : Writer := blank.write (wordFields opcode tag [])

end Writer

/-- Encodes an instruction, field by field. -/
def Instruction.write (instruction : Instruction) (form : Form) :
    Except WordError UInt32 × Writer :=
  match instruction.check form with
  | .error reason => (.error reason, .blank)
  | .ok tag => (Writer.header instruction.opcode tag).operands instruction.operands

namespace Writer

variable {writer : Writer} {field : Field} {fields : List Field}

/-- What holds of a writer as long as it stays in the word: its spans tile the bits that are used,
and the bits behind them are zeros. -/
structure Sound (writer : Writer) : Prop where
  tiled : Span.Tiled writer.spans writer.used
  inside : writer.used ≤ 32
  clear : 2 ^ (32 - writer.used) ∣ writer.word

theorem sound_blank : blank.Sound := ⟨.nil, Nat.zero_le 32, Nat.dvd_zero _⟩

/-- A field is put into zeros, so that it adds to the word what it is worth at its place. -/
theorem Sound.word_push (sound : writer.Sound) (fits : writer.used + field.width ≤ 32) :
    (writer.push field).word = writer.word +
      field.value % 2 ^ field.width * 2 ^ (32 - writer.used - field.width) := by
  obtain ⟨high, clear⟩ := sound.clear
  have low : Span.place ⟨writer.used, field.width⟩ field.value < 2 ^ (32 - writer.used) :=
    Span.place_lt fits field.value
  simp only [push]
  rw [clear, ← Nat.two_pow_add_eq_or_of_lt low, Span.place_eq]

theorem Sound.push (sound : writer.Sound) (pos : 0 < field.width) (narrow : field.width < 32)
    (fits : writer.used + field.width ≤ 32) : (writer.push field).Sound := by
  refine ⟨.concat sound.tiled pos narrow, fits, ?_⟩
  have left : (writer.push field).used = writer.used + field.width := rfl
  rw [sound.word_push fits, left, ← Nat.sub_sub]
  refine Nat.dvd_add (Nat.dvd_trans ?_ sound.clear) (Nat.dvd_mul_left _ _)
  exact Nat.pow_dvd_pow 2 (Nat.sub_le _ _)

/-- Fields that fit behind the bits that are used add to the word what they are packed. -/
theorem Sound.write (sound : writer.Sound)
    (each : ∀ field ∈ fields, 0 < field.width ∧ field.width < 32)
    (fits : writer.used + Field.total fields ≤ 32) :
    (writer.write fields).Sound ∧
      (writer.write fields).used = writer.used + Field.total fields ∧
      (writer.write fields).word = writer.word + Field.pack (32 - writer.used) fields := by
  induction fields generalizing writer with
  | nil => exact ⟨sound, rfl, rfl⟩
  | cons field rest ih =>
    rw [Field.total_cons] at fits
    obtain ⟨⟨pos, narrow⟩, others⟩ := List.forall_mem_cons.mp each
    have used : (writer.push field).used = writer.used + field.width := rfl
    have next := sound.push pos narrow (by omega)
    obtain ⟨last, total, word⟩ := ih next others (by omega)
    refine ⟨last, ?_, ?_⟩
    · rw [Field.total_cons, ← Nat.add_assoc]
      exact total
    · rw [Field.pack_cons, ← Nat.add_assoc, ← sound.word_push (by omega), Nat.sub_sub]
      exact word

theorem write_blank (each : ∀ field ∈ fields, 0 < field.width ∧ field.width < 32)
    (fits : Field.total fields ≤ 32) :
    (blank.write fields).Sound ∧ (blank.write fields).used = Field.total fields ∧
      (blank.write fields).word = Field.pack 32 fields := by
  have room : blank.used + Field.total fields ≤ 32 := (Nat.zero_add _).symm ▸ fits
  obtain ⟨sound, used, word⟩ := sound_blank.write each room
  exact ⟨sound, used.trans (Nat.zero_add _), word.trans (Nat.zero_add _)⟩

theorem narrow_fields {operand : Operand} (has : operand.fields? = some fields) :
    ∀ field ∈ fields, 0 < field.width ∧ field.width < 32 := by
  cases operand with
  | label name => cases has
  | indirect pointer =>
    cases pointer with
    | label name => cases has
    | absolute address =>
      cases has
      simp [valueField]
  | _ =>
    cases has
    simp [valueField, Register.field]

/-- Operands that fit behind the bits that are used stay in the word, also those in front of a
label. -/
theorem Sound.operands {operands : List Operand} (sound : writer.Sound)
    (fits : writer.used + Operand.widths operands ≤ 32) : (writer.operands operands).2.Sound := by
  induction operands generalizing writer with
  | nil => exact sound
  | cons operand rest ih =>
    rw [Operand.widths_cons] at fits
    rw [Writer.operands]
    split
    · exact sound
    · next own has =>
      have total := Operand.total_fields has
      obtain ⟨next, used, -⟩ := sound.write (narrow_fields has) (by omega)
      exact ih next (by omega)

theorem operands_of_fields {operands : List Operand} {fields : List (List Field)}
    (has : List.Forall₂ (fun operand own => operand.fields? = some own) operands fields) :
    writer.operands operands =
      (.ok (UInt32.ofNat (writer.write fields.flatten).word), writer.write fields.flatten) := by
  induction has generalizing writer with
  | nil => rfl
  | @cons operand own operands fields first _ ih =>
    have apart : writer.write (own ++ fields.flatten) = (writer.write own).write fields.flatten :=
      List.foldl_append
    rw [List.flatten_cons, apart, ← ih, Writer.operands, first]

theorem operands_of_label {operands : List Operand}
    (without : operands.mapM Operand.fields? = none) :
    (writer.operands operands).1 = .error .unresolvedLabel := by
  induction operands generalizing writer with
  | nil => cases without
  | cons operand rest ih =>
    rw [Writer.operands]
    cases first : operand.fields? with
    | none => rfl
    | some own =>
      refine ih ?_
      cases later : rest.mapM Operand.fields? with
      | none => rfl
      | some fields => simp [first, later] at without

theorem sound_header (opcode : Opcode) (tag : Nat) :
    (header opcode tag).Sound ∧ (header opcode tag).used = headerWidth := by
  have narrow : ∀ field ∈ wordFields opcode tag [], 0 < field.width ∧ field.width < 32 := by
    simp [wordFields, Opcode.width, tagWidth]
  have fits : headerWidth ≤ 32 := by decide
  obtain ⟨sound, used, -⟩ := write_blank narrow fits
  exact ⟨sound, used⟩

end Writer

namespace Instruction

variable {instruction : Instruction}

theorem Fields.narrow {tag : Nat} {fields : List (List Field)} (has : instruction.Fields fields) :
    ∀ field ∈ wordFields instruction.opcode tag fields, 0 < field.width ∧ field.width < 32 := by
  refine List.forall_mem_cons.mpr ⟨by simp [Opcode.width], ?_⟩
  refine List.forall_mem_cons.mpr ⟨by simp [tagWidth], ?_⟩
  intro field member
  obtain ⟨own, inFields, inOwn⟩ := List.mem_flatten.mp member
  obtain ⟨operand, -, first⟩ := exists_of_mem_forall₂ has inFields
  exact Writer.narrow_fields first field inOwn

/-- An instruction without labels is written as its packed fields, which take the bits of its
layout. -/
theorem Fields.write_header {fields : List (List Field)} (has : instruction.Fields fields)
    (tag : Nat) (fits : layoutBits instruction.modes ≤ 32) :
    ((Writer.header instruction.opcode tag).operands instruction.operands).1 =
        .ok (UInt32.ofNat (Field.pack 32 (wordFields instruction.opcode tag fields))) ∧
      ((Writer.header instruction.opcode tag).operands instruction.operands).2.used =
        layoutBits instruction.modes := by
  have total := has.total tag
  obtain ⟨-, used, word⟩ := Writer.write_blank has.narrow (total ▸ fits)
  -- The operands behind their header are the fields of the whole word.
  have whole : (Writer.header instruction.opcode tag).write fields.flatten =
      Writer.blank.write (wordFields instruction.opcode tag fields) := rfl
  rw [Writer.operands_of_fields has, whole, word, used, total]
  exact ⟨rfl, rfl⟩

/-- Writing never leaves the word. -/
theorem sound_write (instruction : Instruction) (form : Form) :
    (instruction.write form).2.Sound := by
  unfold write
  split
  · exact Writer.sound_blank
  · next tag checked =>
    obtain ⟨-, fits, -⟩ := check_eq_ok_iff.mp checked
    obtain ⟨sound, used⟩ := Writer.sound_header instruction.opcode tag
    rw [layoutBits_modes] at fits
    exact sound.operands (used ▸ fits)

/-- Writing field by field gives the packed word, and uses the bits of its layout. -/
theorem write_eq_encode (instruction : Instruction) (form : Form) :
    (instruction.write form).1 = instruction.encode form ∧
      ∀ word, instruction.encode form = .ok word →
        (instruction.write form).2.used = layoutBits instruction.modes := by
  unfold write encode
  cases checked : instruction.check form with
  | error reason => exact ⟨rfl, nofun⟩
  | ok tag =>
    obtain ⟨-, fits, -⟩ := check_eq_ok_iff.mp checked
    dsimp only
    cases resolved : instruction.operands.mapM Operand.fields? with
    | none => exact ⟨Writer.operands_of_label resolved, nofun⟩
    | some fields =>
      have has : instruction.Fields fields := mapM_eq_some_iff_forall₂.mp resolved
      obtain ⟨result, used⟩ := has.write_header tag fits
      exact ⟨result, fun _ _ => used⟩

end Instruction

end Tetrad
