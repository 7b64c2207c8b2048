import Tetrad.Proofs.Word.Writing

/-!
# Reading a word field by field

A reader is a cursor with a record of the bits of each field that it reads. What is read from it is
what the cursor alone gives (`Table.read_cursor`), and its spans tile the word like those of a
writer, whether the word decodes or not (`Table.sound_read`). Together with what holds of writers
this keeps encoding and decoding inside the word (`fields_stay_inside`).
-/

namespace Tetrad

open FieldSource

/-- A cursor, and the span of every field that it has read. -/
structure Reader where
  cursor : Cursor
  spans : List Span
deriving DecidableEq, Repr, Inhabited

namespace Reader

def ofWord (word : UInt32) : Reader := ⟨.ofWord word, []⟩

def take (reader : Reader) (width : Nat) : Nat × Reader :=
  let (value, next) := reader.cursor.take width
  (value, ⟨next, reader.spans ++ [⟨used reader.cursor, width⟩]⟩)

instance : FieldSource Reader := ⟨take, fun reader => reader.cursor.room⟩

variable {reader : Reader} {mode : Mode}

theorem takeOperand_cursor (reader : Reader) (mode : Mode) :
    takeOperand reader.cursor mode =
      ((takeOperand reader mode).1, (takeOperand reader mode).2.cursor) := by
  cases mode <;> rfl

theorem readOperand_cursor (reader : Reader) (mode : Mode) :
    readOperand reader.cursor mode =
      ((readOperand reader mode).1, (readOperand reader mode).2.cursor) := by
  have room : FieldSource.room reader.cursor = FieldSource.room reader := rfl
  unfold readOperand
  rw [room]
  split
  · rfl
  · rw [takeOperand_cursor]
    rfl

theorem readOperands_cursor (reader : Reader) (tag position : Nat) (sets : List ModeSet) :
    readOperands reader.cursor tag position sets =
      ((readOperands reader tag position sets).1,
        (readOperands reader tag position sets).2.cursor) := by
  fun_induction readOperands reader tag position sets with
  | case1 => rfl
  | case2 reader position set sets named =>
    rw [readOperands, named]
  | case3 reader position set sets mode named reason next first =>
    rw [readOperands, named]
    dsimp only
    rw [readOperand_cursor, first]
  | case4 reader position set sets mode named operand next first rest last later ih =>
    rw [readOperands, named]
    dsimp only
    rw [readOperand_cursor, first]
    dsimp only
    rw [ih, later]

/-- What holds of a reader as long as it stays in the word: its spans tile what is read. -/
structure Sound (reader : Reader) : Prop where
  tiled : Span.Tiled reader.spans (used reader)
  inside : reader.cursor.room ≤ 32

theorem sound_ofWord (word : UInt32) : (ofWord word).Sound := ⟨.nil, Nat.le_refl 32⟩

theorem Sound.take {width : Nat} (sound : reader.Sound) (pos : 0 < width) (narrow : width < 32)
    (fits : width ≤ reader.cursor.room) : (FieldSource.take reader width).2.Sound := by
  have inside := sound.inside
  have after : used (FieldSource.take reader width).2 = used reader + width := by
    show 32 - (reader.cursor.room - width) = 32 - reader.cursor.room + width
    omega
  refine ⟨?_, Nat.le_trans (Nat.sub_le _ _) inside⟩
  rw [after]
  exact .concat sound.tiled pos narrow

theorem Sound.takeRegister (sound : reader.Sound) (fits : 4 ≤ reader.cursor.room) :
    (takeRegister reader).2.Sound ∧
      (takeRegister reader).2.cursor.room = reader.cursor.room - 4 :=
  ⟨sound.take (by decide) (by decide) fits, rfl⟩

theorem Sound.takeOperand (sound : reader.Sound) (fits : mode.width ≤ reader.cursor.room) :
    (takeOperand reader mode).2.Sound := by
  cases mode with
  | immediate | direct | label | indirect | pcRelative | register | registerIndirect =>
    exact sound.take (by decide) (by decide) fits
  | registerRelative =>
    have fits : 20 ≤ reader.cursor.room := fits
    obtain ⟨first, room⟩ := sound.takeRegister (by omega)
    exact first.take (by decide) (by decide) (by omega)
  | indexedScaled =>
    have fits : 20 ≤ reader.cursor.room := fits
    obtain ⟨first, room⟩ := sound.takeRegister (by omega)
    have second : (FieldSource.take (FieldSource.takeRegister reader).2 4).2.Sound :=
      first.take (by decide) (by decide) (by omega)
    have left : (FieldSource.take (FieldSource.takeRegister reader).2 4).2.cursor.room =
        reader.cursor.room - 4 - 4 := rfl
    exact second.take (by decide) (by decide) (by omega)

/-- An operand takes the bits of the mode that it is read in. -/
theorem takeOperand_width (reader : Reader) (mode : Mode) :
    (takeOperand reader mode).2.cursor.room = reader.cursor.room - mode.width ∧
      (takeOperand reader mode).1.mode.width = mode.width := by
  cases mode with
  | registerRelative => exact ⟨Nat.sub_sub reader.cursor.room 4 16, rfl⟩
  | indexedScaled =>
    refine ⟨?_, rfl⟩
    show reader.cursor.room - 4 - 4 - 12 = reader.cursor.room - 20
    omega
  | _ => exact ⟨rfl, rfl⟩

theorem Sound.readOperand (sound : reader.Sound) : (readOperand reader mode).2.Sound := by
  unfold FieldSource.readOperand
  split
  · exact sound
  · next fits => exact sound.takeOperand (Nat.le_of_not_lt fits)

theorem room_readOperand {operand : Operand} {next : Reader}
    (read : readOperand reader mode = (.ok operand, next)) :
    next.cursor.room + operand.mode.width = reader.cursor.room := by
  unfold readOperand at read
  split at read
  · cases read
  · next fits =>
    obtain ⟨room, width⟩ := takeOperand_width reader mode
    cases read
    have fits : mode.width ≤ reader.cursor.room := Nat.le_of_not_lt fits
    show (takeOperand reader mode).2.cursor.room + (takeOperand reader mode).1.mode.width = _
    omega

/-- Reading operands stays in the word, whether it comes to its end or not. -/
theorem Sound.readOperands {tag position : Nat} {sets : List ModeSet} (sound : reader.Sound) :
    (readOperands reader tag position sets).2.Sound := by
  fun_induction FieldSource.readOperands reader tag position sets with
  | case1 => exact sound
  | case2 => exact sound
  | case3 reader position set sets mode named reason next first =>
    have after : (FieldSource.readOperand reader mode).2.Sound := sound.readOperand
    rw [first] at after
    exact after
  | case4 reader position set sets mode named operand next first rest last later ih =>
    have after : (FieldSource.readOperand reader mode).2.Sound := sound.readOperand
    rw [first] at after
    rw [later] at ih
    exact ih after

theorem room_readOperands {tag position : Nat} {sets : List ModeSet} {operands : List Operand}
    (read : (readOperands reader tag position sets).1 = .ok operands) :
    (readOperands reader tag position sets).2.cursor.room + Operand.widths operands =
      reader.cursor.room := by
  fun_induction readOperands reader tag position sets generalizing operands with
  | case1 =>
    cases read
    rfl
  | case2 => cases read
  | case3 => cases read
  | case4 reader position set sets mode named operand next first rest last later ih =>
    obtain ⟨others, rfl, rfl⟩ := map_eq_ok_iff.mp read
    rw [later] at ih
    have room := room_readOperand first
    have left := ih rfl
    rw [Operand.widths_cons]
    dsimp only at left ⊢
    omega

def behindOpcode (word : UInt32) : Reader := (FieldSource.take (ofWord word) Opcode.width).2

def behindTag (word : UInt32) : Reader := (FieldSource.take (behindOpcode word) tagWidth).2

theorem sound_behindOpcode (word : UInt32) : (behindOpcode word).Sound := by
  have fits : Opcode.width ≤ (ofWord word).cursor.room := show 5 ≤ 32 by decide
  exact (sound_ofWord word).take (by decide) (by decide) fits

theorem sound_behindTag (word : UInt32) :
    (behindTag word).Sound ∧ (behindTag word).cursor.room + headerWidth = 32 := by
  have fits : tagWidth ≤ (behindOpcode word).cursor.room := show 3 ≤ 32 - 5 by decide
  exact ⟨(sound_behindOpcode word).take (by decide) (by decide) fits, rfl⟩

end Reader

namespace Table

/-- Forgetting the record is reading with the cursor alone. -/
theorem read_cursor (table : Table) (reader : Reader) :
    table.read reader.cursor = ((table.read reader).1, (table.read reader).2.cursor) := by
  have take : ∀ (reader : Reader) (width : Nat), FieldSource.take reader.cursor width =
      ((FieldSource.take reader width).1, (FieldSource.take reader width).2.cursor) :=
    fun _ _ => rfl
  unfold read
  rw [take]
  dsimp only
  split
  · rfl
  · rw [take]
    dsimp only
    rw [Reader.readOperands_cursor]

theorem read_eq_decode (table : Table) (word : UInt32) :
    (table.read (Reader.ofWord word)).1 = table.decode word :=
  (congrArg Prod.fst (table.read_cursor (Reader.ofWord word))).symm

/-- Decoding stays in the word, whatever the word is. -/
theorem sound_read (table : Table) (word : UInt32) : (table.read (Reader.ofWord word)).2.Sound := by
  unfold read
  dsimp only
  split
  · exact Reader.sound_behindOpcode word
  · exact (Reader.sound_behindTag word).1.readOperands

/-- A word that decodes is read up to the end of the layout. -/
theorem used_read {table : Table} {word : UInt32} {instruction : Instruction}
    (decoded : (table.read (Reader.ofWord word)).1 = .ok instruction) :
    used (table.read (Reader.ofWord word)).2 = layoutBits instruction.modes := by
  unfold read at decoded ⊢
  dsimp only at decoded ⊢
  split at decoded
  · cases decoded
  · next form named =>
    obtain ⟨operands, own, rfl⟩ := map_eq_ok_iff.mp decoded
    have room := Reader.room_readOperands own
    have header : (Reader.behindTag word).cursor.room + headerWidth = 32 :=
      (Reader.sound_behindTag word).2
    have behind : (take (take (Reader.ofWord word) Opcode.width).2 tagWidth).2 =
        Reader.behindTag word := rfl
    rw [behind] at room ⊢
    rw [Instruction.layoutBits_modes]
    show 32 - (readOperands (Reader.behindTag word) _ 0 form.operands).2.cursor.room =
      headerWidth + Operand.widths operands
    omega

end Table

/-- Encoding puts every field inside the word, no two of them into the same bits, and a word that it
gives has used the bits of the layout. -/
structure Instruction.WritesInside (instruction : Instruction) (form : Form) : Prop where
  result : (instruction.write form).1 = instruction.encode form
  inside : ∀ span ∈ (instruction.write form).2.spans, span.Inside
  apart : (instruction.write form).2.spans.Pairwise Span.Apart
  used : ∀ word, instruction.encode form = .ok word →
    (instruction.write form).2.used = layoutBits instruction.modes

/-- Decoding takes every field from inside the word, no two of them from the same bits, and a word
that it understands is read as far as its layout goes. -/
structure Table.ReadsInside (table : Table) (word : UInt32) : Prop where
  result : (table.read (Reader.ofWord word)).1 = table.decode word
  inside : ∀ span ∈ (table.read (Reader.ofWord word)).2.spans, span.Inside
  apart : (table.read (Reader.ofWord word)).2.spans.Pairwise Span.Apart
  used : ∀ instruction, table.decode word = .ok instruction →
    used (table.read (Reader.ofWord word)).2 = layoutBits instruction.modes

/-- No field is ever put outside a word or taken from outside it, whatever is encoded in whatever
form, and whatever is decoded by whatever table. -/
theorem fields_stay_inside (instruction : Instruction) (form : Form) (table : Table)
    (word : UInt32) : instruction.WritesInside form ∧ table.ReadsInside word := by
  have written := instruction.sound_write form
  have read := table.sound_read word
  obtain ⟨result, whole⟩ := instruction.write_eq_encode form
  have fits : used (table.read (Reader.ofWord word)).2 ≤ 32 := Nat.sub_le 32 _
  refine ⟨⟨result, ?_, ?_, whole⟩, ⟨table.read_eq_decode word, ?_, ?_, ?_⟩⟩
  · exact written.tiled.inside written.inside
  · exact written.tiled.apart written.inside
  · exact read.tiled.inside fits
  · exact read.tiled.apart fits
  · exact fun _ decoded => Table.used_read ((table.read_eq_decode word).trans decoded)

/-- A store to a scaled place fills its word, in six fields. -/
example :
    let spans := [⟨0, 5⟩, ⟨5, 3⟩, ⟨8, 4⟩, ⟨12, 4⟩, ⟨16, 4⟩, ⟨20, 12⟩]
    Instruction.write ⟨.store, [.register ⟨2⟩, .indexedScaled 0xABC 4 ⟨5⟩]⟩
        ⟨"STR", .store, [Table.registerOnly, Table.memoryModes]⟩ =
      (.ok 0x97254ABC, ⟨0x97254ABC, 32, spans⟩) ∧
    (Table.standard.read (Reader.ofWord 0x97254ABC)).2.spans = spans := by
  decide

end Tetrad
