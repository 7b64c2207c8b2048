import Mathlib.Data.List.Nodup
import Tetrad.Listing
import Tetrad.Proofs.Program.Encoding

namespace Tetrad

variable {table : Table} {labels : Labels} {line : InstructionLine} {word : UInt32}

theorem wordOfBytes_wordByte (word : UInt32) :
    wordOfBytes (wordByte word 0) (wordByte word 1) (wordByte word 2) (wordByte word 3) = word := by
  have bound := word.toNat_lt
  apply UInt32.toNat_inj.mp
  simp only [wordOfBytes, wordByte, UInt8.toNat_ofNat', UInt32.toNat_ofNat']
  omega

theorem Listing.fromAddress_wordBytes (table : Table) (address : UInt16) (word : UInt32)
    (rest : List UInt8) : fromAddress table address (wordBytes word ++ rest) =
      lineOfWord table address word :: fromAddress table (address + 4) rest := by
  simp only [wordBytes, List.cons_append, List.nil_append, fromAddress, wordOfBytes_wordByte]

theorem Table.byOpcode?_of_mem (distinct : (table.forms.map Form.opcode).Nodup) {form : Form}
    (listed : form ∈ table.forms) : table.byOpcode? form.opcode = some form := by
  have some_form : (table.byOpcode? form.opcode).isSome := by
    rw [byOpcode?, List.find?_isSome]
    exact ⟨form, listed, by simp⟩
  obtain ⟨found, searched⟩ := Option.isSome_iff_exists.mp some_form
  have member := List.mem_of_find?_eq_some searched
  rw [searched, List.inj_on_of_nodup_map distinct member listed (opcode_of_byOpcode? searched)]

/-- A line of a listing shows an instruction line: an instruction with its opcode, and with its
operands but for the addresses in the place of labels. -/
def InstructionLine.Shown (labels : Labels) (line : InstructionLine) (shown : ListingLine) : Prop :=
  ∃ address word operands, shown = .instruction address word ⟨line.form.opcode, operands⟩ ∧
    List.Forall₂ (Operand.Located labels.address?) line.operands operands

/-- The word of an instruction line decodes to the relocated instruction. -/
theorem InstructionLine.exists_decode_of_encode (distinct : (table.forms.map Form.opcode).Nodup)
    (wellFormed : line.WellFormed table) (encoded : line.encode labels = .ok word) :
    ∃ instruction, line.relocate labels = .ok instruction ∧
      table.decode word = .ok instruction := by
  obtain ⟨instruction, relocated, encoded⟩ := InstructionLine.encode_eq_ok_iff.mp encoded
  obtain ⟨same, located⟩ := InstructionLine.relocate_eq_ok_iff.mp relocated
  have found : table.byOpcode? instruction.opcode = some line.form := by
    rw [same]
    exact table.byOpcode?_of_mem distinct wellFormed.listed
  have inRange : ∀ operand ∈ instruction.operands, operand.InRange := by
    intro operand member
    obtain ⟨written, inLine, at_⟩ := exists_of_mem_forall₂ located member
    exact at_.inRange (wellFormed.inRange written inLine)
  have decoded := decode_of_encode found encoded
  rw [Instruction.cut_of_inRange inRange] at decoded
  exact ⟨instruction, relocated, decoded⟩

theorem InstructionLine.shown_of_encode (distinct : (table.forms.map Form.opcode).Nodup)
    (wellFormed : line.WellFormed table) (encoded : line.encode labels = .ok word)
    (address : UInt16) : line.Shown labels (Listing.lineOfWord table address word) := by
  obtain ⟨instruction, relocated, decoded⟩ :=
    line.exists_decode_of_encode distinct wellFormed encoded
  obtain ⟨same, located⟩ := InstructionLine.relocate_eq_ok_iff.mp relocated
  refine ⟨address, word, instruction.operands, ?_, located⟩
  rw [Listing.lineOfWord, decoded, ← same]

/-- The listing of the words of instruction lines shows the lines one by one, from any address. -/
theorem Listing.shown_of_encode (distinct : (table.forms.map Form.opcode).Nodup)
    {lines : List InstructionLine} {words : List UInt32}
    (wellFormed : ∀ line ∈ lines, line.WellFormed table)
    (encoded : List.Forall₂ (fun line word => line.encode labels = .ok word) lines words)
    (address : UInt16) : List.Forall₂ (InstructionLine.Shown labels) lines
      (fromAddress table address (words.flatMap wordBytes)) := by
  induction encoded generalizing address with
  | nil => exact .nil
  | @cons line word lines words first _ ih =>
    rw [List.flatMap_cons, fromAddress_wordBytes]
    obtain ⟨own, others⟩ := List.forall_mem_cons.mp wellFormed
    exact .cons (line.shown_of_encode distinct own first address) (ih others (address + 4))

/-- The listing of an assembled program shows its instruction lines one by one, and nothing else. -/
theorem Program.listing_of_assemble (table : Table) (base : UInt16) (source : String)
    (program : Program) (distinct : (table.forms.map Form.opcode).Nodup)
    (assembled : Program.assemble table base source = .ok program) :
    ∃ rom, program.bytes = .ok rom ∧
      (Listing.ofRom table rom).length = program.instructions.length ∧
      List.Forall₂ (InstructionLine.Shown program.labels) program.instructions
        (Listing.ofRom table rom) := by
  obtain ⟨words, encoded, whole⟩ := exists_words assembled
  have shown := Listing.shown_of_encode distinct
    (fun line member => (wellFormed_and_placed assembled member).1) encoded loadAddress
  exact ⟨_, whole, shown.length_eq.symm, shown⟩

/-- A table in which a jump leads to a label and nowhere else. -/
def Table.labelled : Table :=
  ⟨[⟨"GOTO", .jump .always, [.ofList [.label]]⟩,
    ⟨"TAKE", .load, [registerOnly, .ofList [.label, .indirect]]⟩]⟩

/-- A program at the end of the address space, under that table. -/
theorem Program.listing_of_assemble_labelled :
    ∃ program, Program.assemble .labelled 0xFFF4 ".top\nTAKE r3, (.end)\nGOTO .top\n.end" =
        .ok program ∧
      ∃ rom, program.bytes = .ok rom ∧
        (Listing.ofRom .labelled rom).length = program.instructions.length ∧
        List.Forall₂ (InstructionLine.Shown program.labels) program.instructions
          (Listing.ofRom .labelled rom) :=
  ⟨_, rfl, listing_of_assemble .labelled 0xFFF4 ".top\nTAKE r3, (.end)\nGOTO .top\n.end" _
    (by decide) rfl⟩

end Tetrad
