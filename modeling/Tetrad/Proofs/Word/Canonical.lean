import Tetrad.Proofs.Word.RoundTrip

namespace Tetrad

/-- The bit of a word at a position, counted from the most significant one. -/
def bitAt (word : UInt32) (position : Nat) : Bool := word.toNat.testBit (31 - position)

/-- The tag in the header of a word. -/
def tagOf (word : UInt32) : Nat := word.toNat / 2 ^ 24 % 2 ^ tagWidth

theorem testBit_eq_of_div_eq {a b low place : Nat} (same : a / 2 ^ low = b / 2 ^ low)
    (above : low ≤ place) : a.testBit place = b.testBit place := by
  obtain ⟨rise, rfl⟩ := Nat.exists_eq_add_of_le above
  rw [Nat.add_comm, ← Nat.testBit_div_two_pow, same, Nat.testBit_div_two_pow]

/-- A word in which the fields are found is the sum of its opcode, its tag, the packed fields of the
operands and the bits after them, each in its own place. -/
structure WordHolds (word : UInt32) (opcode : Opcode) (tag : Nat) (fields : List (List Field))
    (last : Cursor) : Prop where
  number : word.toNat =
    opcode.number * 2 ^ 27 + (tag * 2 ^ 24 + (Field.pack 24 fields.flatten + last.rest))
  inside : Field.pack 24 fields.flatten + last.rest < 2 ^ 24
  unused : last.rest < 2 ^ last.room
  aligned : 2 ^ last.room ∣ Field.pack 24 fields.flatten
  room : last.room ≤ 24

variable {word : UInt32} {opcode : Opcode} {tag : Nat} {fields : List (List Field)} {last : Cursor}

theorem wordHolds_of_reads (small : tag < 2 ^ tagWidth)
    (reads : (Cursor.ofWord word).Reads (wordFields opcode tag fields) last) :
    WordHolds word opcode tag fields last := by
  have bounded := Cursor.bounded_ofWord word
  have whole := reads.rest_eq
  have parts : (Cursor.ofWord word).Reads
      ([⟨opcode.number, Opcode.width⟩, ⟨tag, tagWidth⟩] ++ fields.flatten) last := reads
  obtain ⟨next, header, operands⟩ := Cursor.reads_append_iff.mp parts
  have room : next.room = 24 := by
    have split : 32 = 8 + next.room := header.room_eq
    omega
  have left := operands.room_eq
  have inside := header.bounded bounded
  rw [Cursor.Bounded, operands.rest_eq, room] at inside
  refine ⟨?_, inside, reads.bounded bounded, ?_, by omega⟩
  · have number := Nat.mod_eq_of_lt opcode.number_lt
    have tagged := Nat.mod_eq_of_lt small
    simp only [wordFields, Field.pack_cons, number, tagged] at whole
    rw [Nat.add_assoc, Nat.add_assoc] at whole
    exact whole
  · have aligned := Field.dvd_pack (show Field.total fields.flatten ≤ 24 by omega)
    rwa [show 24 - Field.total fields.flatten = last.room by omega] at aligned

namespace WordHolds

theorem bitAt_opcode (holds : WordHolds word opcode tag fields last) (small : tag < 2 ^ tagWidth)
    {position : Nat} (header : position < Opcode.width) :
    bitAt word position = opcode.number.testBit (4 - position) := by
  have tagBound : tag < 8 := small
  have header : position < 5 := header
  have number := holds.number
  have inside := holds.inside
  have high : word.toNat / 2 ^ 27 = opcode.number := by omega
  rw [← high, Nat.testBit_div_two_pow, bitAt]
  congr 1
  omega

theorem tagOf_eq (holds : WordHolds word opcode tag fields last) (small : tag < 2 ^ tagWidth) :
    tagOf word = tag := by
  have tagBound : tag < 8 := small
  have number := holds.number
  have inside := holds.inside
  show word.toNat / 2 ^ 24 % 8 = tag
  omega

theorem bitAt_operands (holds : WordHolds word opcode tag fields last) {position : Nat}
    (after : 8 ≤ position) (before : position < 32 - last.room) :
    bitAt word position = (Field.pack 24 fields.flatten).testBit (31 - position) := by
  obtain ⟨count, aligned⟩ := holds.aligned
  have number := holds.number
  have inside := holds.inside
  have low : word.toNat % 2 ^ 24 = Field.pack 24 fields.flatten + last.rest := by omega
  have same : word.toNat % 2 ^ 24 / 2 ^ last.room =
      Field.pack 24 fields.flatten / 2 ^ last.room := by
    rw [low, aligned, Nat.mul_add_div (Nat.two_pow_pos _), Nat.div_eq_of_lt holds.unused,
      Nat.mul_div_cancel_left _ (Nat.two_pow_pos _), Nat.add_zero]
  have bits := testBit_eq_of_div_eq same (show last.room ≤ 31 - position by omega)
  have inField : 31 - position < 24 := by omega
  rw [Nat.testBit_mod_two_pow, decide_eq_true inField, Bool.true_and] at bits
  exact bits

/-- The bits after the operands are zeros if nothing is left of the word. -/
theorem bitAt_unused (holds : WordHolds word opcode tag fields last) (empty : last.rest = 0)
    {position : Nat} (after : 32 - last.room ≤ position) (before : position < 32) :
    bitAt word position = false := by
  have zeros : word.toNat % 2 ^ last.room = 0 := by
    have room := holds.room
    have high : 2 ^ last.room ∣ 2 ^ 24 := Nat.pow_dvd_pow 2 room
    have highest : 2 ^ last.room ∣ 2 ^ 27 := Nat.pow_dvd_pow 2 (by omega)
    rw [holds.number, empty]
    exact Nat.mod_eq_zero_of_dvd (Nat.dvd_add (Nat.dvd_mul_left_of_dvd highest _)
      (Nat.dvd_add (Nat.dvd_mul_left_of_dvd high _) holds.aligned))
  have bit : (word.toNat % 2 ^ last.room).testBit (31 - position) = false := by simp [zeros]
  have low : 31 - position < last.room := by
    have room := holds.room
    omega
  rw [Nat.testBit_mod_two_pow, decide_eq_true low, Bool.true_and] at bit
  exact bit

end WordHolds

/-- Without a free position the tag that is written is that of the first operand. -/
theorem Form.tag_of_fixed {form : Form} (fixed : form.operands.any ModeSet.isFree = false)
    (modes : List Mode) : form.tag modes = modes.head?.elim 0 Mode.tag := by
  simp [tag, fixed]

/-- A word agrees with another in its opcode and in the bits of operands of these modes. It has the
tag that the form gives, and zeros in the bits that no operand uses. -/
structure Form.Canonical (form : Form) (modes : List Mode) (word canonical : UInt32) : Prop where
  opcode : ∀ position < Opcode.width, bitAt canonical position = bitAt word position
  tag : tagOf canonical = if form.operands.any ModeSet.isFree then tagOf word
    else modes.head?.elim 0 Mode.tag
  operands : ∀ position, headerWidth ≤ position → position < layoutBits modes →
    bitAt canonical position = bitAt word position
  unused : ∀ position, layoutBits modes ≤ position → position < 32 →
    bitAt canonical position = false

/-- Encoding undoes decoding: what a word decodes to has a canonical word of its own, and both
decode to the same instruction. -/
theorem encode_decode (table : Table) (word : UInt32) (instruction : Instruction)
    (decoded : table.decode word = .ok instruction) :
    ∃ form canonical, table.byOpcode? instruction.opcode = some form ∧
      instruction.encode form = .ok canonical ∧
      form.Canonical instruction.modes word canonical ∧
      table.decode canonical = .ok instruction := by
  obtain ⟨form, tag, fields, last, found, small, named, inRange, has, reads⟩ :=
    reads_of_decode decoded
  obtain ⟨admits, kept⟩ := Form.admits_of_decoded named
  have own := form.tag_lt instruction.modes
  have room : 32 = layoutBits instruction.modes + last.room := has.total tag ▸ reads.room_eq
  have fits : layoutBits instruction.modes ≤ 32 := by omega
  have encoded := Instruction.encode_eq_ok_iff.mpr ⟨admits, fits, fields, has, rfl⟩
  -- The canonical word holds the same fields as the given one, and nothing after them.
  have before := wordHolds_of_reads small reads
  have after := wordHolds_of_reads own (reads_of_encode has fits)
  refine ⟨form, _, found, encoded, ⟨?_, ?_, ?_, ?_⟩, ?_⟩
  · intro position header
    rw [before.bitAt_opcode small header, after.bitAt_opcode own header]
  · rw [before.tagOf_eq small, after.tagOf_eq own]
    split
    · next free => exact kept free
    · next fixed => exact Form.tag_of_fixed (Bool.eq_false_iff.mpr fixed) _
  · intro position low high
    have low : 8 ≤ position := low
    rw [before.bitAt_operands low (by omega), after.bitAt_operands low (by simp only; omega)]
  · intro position low high
    exact after.bitAt_unused rfl (by simp only; omega) high
  · rw [decode_of_encode found encoded, Instruction.cut_of_inRange inRange]

/-- A word that prints a register under the tag of another mode, with bits after its operand. -/
theorem encode_decode_print :
    Table.standard.decode 0x1FD12345 = .ok ⟨.print, [.register ⟨13⟩]⟩ ∧
      ∃ form canonical, Table.standard.byOpcode? .print = some form ∧
        Instruction.encode ⟨.print, [.register ⟨13⟩]⟩ form = .ok canonical ∧
        form.Canonical [.register] 0x1FD12345 canonical ∧
        Table.standard.decode canonical = .ok ⟨.print, [.register ⟨13⟩]⟩ :=
  ⟨rfl, encode_decode Table.standard 0x1FD12345 ⟨.print, [.register ⟨13⟩]⟩ rfl⟩

end Tetrad
