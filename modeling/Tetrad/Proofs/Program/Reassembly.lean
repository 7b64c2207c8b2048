import Tetrad.Proofs.Program.Disassembly
import Tetrad.Proofs.Program.Layout
import Tetrad.Proofs.Program.Printing

/-!
# A listing assembled again

A listing says each instruction with addresses where its source has labels
(`InstructionLine.Restates`). Under a table that accepts addresses wherever it accepts labels these
lines are a source of their own: they can be said, they have a layout since none declares or names a
label, and each has the word that it was decoded from.
-/

namespace Tetrad

variable {table : Table} {labels : Labels} {line other : InstructionLine}

/-- The second line says the first one with addresses in the place of its labels. -/
structure InstructionLine.Restates (labels : Labels) (line other : InstructionLine) : Prop where
  form : other.form = line.form
  relocated : line.relocate labels = .ok ⟨line.form.opcode, other.operands⟩

/-- A table in which listings can be read: an opcode has one form, spelled as the opcode is, and
addresses are accepted wherever labels are. -/
structure Table.Relistable (table : Table) : Prop where
  distinct : (table.forms.map Form.opcode).Nodup
  spelled : ∀ form ∈ table.forms, form.mnemonic = form.opcode.mnemonic
  direct : ∀ form ∈ table.forms, ∀ set ∈ form.operands, set.contains .label = true →
    set.contains .direct = true

theorem Table.relistable_standard : standard.Relistable :=
  ⟨by decide, by decide, by decide⟩

theorem Form.Accepts.stored {form : Form} {modes : List Mode} (accepts : form.Accepts modes)
    (direct : ∀ set ∈ form.operands, set.contains .label = true → set.contains .direct = true) :
    form.Accepts (modes.map Mode.stored) := by
  obtain ⟨length, each⟩ := List.forall₂_iff_zip.mp accepts.each
  refine ⟨?_, accepts.shared.stored⟩
  rw [List.forall₂_map_right_iff]
  refine List.forall₂_iff_zip.mpr ⟨length, ?_⟩
  intro set mode member
  have inSet := each member
  unfold Mode.stored
  split
  · next same =>
    rw [same] at inSet
    exact direct set (List.of_mem_zip member).1 inSet
  · exact inSet

namespace InstructionLine.Restates

variable (restates : line.Restates labels other)

include restates

theorem modes_eq : other.modes = line.modes.map Mode.stored :=
  modes_of_relocate restates.relocated

theorem layoutBits_eq : other.layoutBits = line.layoutBits := by
  rw [layoutBits, restates.modes_eq, layoutBits_stored]
  rfl

theorem label?_eq_none : ∀ operand ∈ other.operands, operand.label? = none := by
  intro operand member
  obtain ⟨-, located⟩ := relocate_eq_ok_iff.mp restates.relocated
  obtain ⟨written, -, at_⟩ := exists_of_mem_forall₂ located member
  exact at_.label?_eq_none

theorem encode {word : UInt32} (encoded : line.encode labels = .ok word) (others : Labels) :
    other.encode others = .ok word := by
  obtain ⟨instruction, relocated, encoded⟩ := encode_eq_ok_iff.mp encoded
  cases restates.relocated.symm.trans relocated
  have plain : List.Forall₂ (Operand.Located others.address?) other.operands other.operands :=
    List.forall₂_same.mpr fun operand member => .plain (restates.label?_eq_none operand member)
  have own : other.relocate others = .ok ⟨other.form.opcode, other.operands⟩ :=
    relocate_eq_ok_iff.mpr ⟨rfl, plain⟩
  rw [← restates.form] at encoded
  exact encode_eq_ok_iff.mpr ⟨_, own, encoded⟩

/-- Where a line can be said, so can the one with addresses. -/
theorem sayable (relistable : table.Relistable)
    (first : Statement.Sayable table (.instruction line)) :
    Statement.Sayable table (.instruction other) := by
  cases first with
  | instruction word plain found accepts writable =>
    have listed : line.form ∈ table.forms := List.mem_of_find?_eq_some found
    rw [← restates.form] at word plain found
    refine .instruction word plain found ?_ ?_
    · rw [restates.form, restates.modes_eq]
      exact accepts.stored (relistable.direct line.form listed)
    · intro operand member
      obtain ⟨-, located⟩ := relocate_eq_ok_iff.mp restates.relocated
      obtain ⟨written, inLine, at_⟩ := exists_of_mem_forall₂ located member
      refine ⟨at_.inRange (writable written inLine).inRange, ?_⟩
      intro name refers
      rw [at_.label?_eq_none] at refers
      cases refers

end InstructionLine.Restates

/-- What a listing shows of an instruction line restates it, in the same words. -/
theorem InstructionLine.Shown.exists_restated {shown : ListingLine} (own : line.Shown labels shown)
    (spelled : line.form.mnemonic = line.form.opcode.mnemonic) :
    ∃ other instruction, line.Restates labels other ∧ shown.instruction? = some instruction ∧
      instruction.text = other.text := by
  obtain ⟨address, word, operands, rfl, located⟩ := own
  have same : (operands.map fun operand => Argument.mk operand "" default).map Argument.operand =
      operands := by
    rw [List.map_map]
    exact List.map_id _
  refine ⟨⟨line.form, operands.map fun operand => ⟨operand, "", default⟩, default⟩, _,
    ⟨rfl, relocate_eq_ok_iff.mpr ⟨rfl, ?_⟩⟩, rfl, ?_⟩
  · show List.Forall₂ _ line.operands (List.map Argument.operand _)
    rw [same]
    exact located
  · show commandText _ operands = commandText _ (List.map Argument.operand _)
    rw [same, spelled]

theorem Listing.exists_restated {lines : List InstructionLine} {listing : List ListingLine}
    (spelled : ∀ line ∈ lines, line.form.mnemonic = line.form.opcode.mnemonic)
    (shown : List.Forall₂ (InstructionLine.Shown labels) lines listing) :
    ∃ others, List.Forall₂ (InstructionLine.Restates labels) lines others ∧
      (listing.filterMap ListingLine.instruction?).map Instruction.text =
        others.map InstructionLine.text := by
  induction shown with
  | nil => exact ⟨[], .nil, rfl⟩
  | @cons line own lines listing first _ ih =>
    obtain ⟨here, later⟩ := List.forall_mem_cons.mp spelled
    obtain ⟨other, instruction, restates, found, text⟩ := first.exists_restated here
    obtain ⟨others, all, texts⟩ := ih later
    refine ⟨other :: others, .cons restates all, ?_⟩
    rw [List.filterMap_cons_some found, List.map_cons, List.map_cons, text, texts]

def Statement.ofLines (lines : List InstructionLine) : List Statement := lines.map .instruction

theorem Statement.instructions_ofLines (lines : List InstructionLine) :
    (ofLines lines).filterMap instruction? = lines := by
  rw [ofLines, List.filterMap_map]
  exact List.filterMap_some

theorem Statement.print_ofLines (lines : List InstructionLine) :
    print (ofLines lines) = String.intercalate "\n" (lines.map InstructionLine.text) := by
  rw [print, ofLines, List.map_map]
  rfl

theorem Statement.mem_ofLines {lines : List InstructionLine} :
    .instruction line ∈ ofLines lines ↔ line ∈ lines := by
  simp [ofLines]

theorem Statement.names_ofLines (lines : List InstructionLine) : names (ofLines lines) = [] := by
  rw [names, ofLines, List.filterMap_map]
  exact List.filterMap_eq_nil_iff.mpr fun line _ => rfl

/-- Lines that restate those of a program with a layout have one on their own. -/
theorem Statement.HasLayout.restated {statements : List Statement} {base : UInt16}
    {others : List InstructionLine} (layout : HasLayout statements base)
    (all : List.Forall₂ (InstructionLine.Restates labels) (statements.filterMap instruction?)
      others) : HasLayout (ofLines others) base := by
  have count_eq : count (ofLines others) = count statements := by
    rw [count, count, instructions_ofLines, all.length_eq]
  refine ⟨?_, ?_, ?_, ?_, ?_⟩
  · rw [names_ofLines]
    exact List.nodup_nil
  · -- No label is declared, so there is none to be placed.
    intro before label after split
    have member : Statement.declaration label ∈ ofLines others := by simp [split]
    obtain ⟨line, -, impossible⟩ := List.mem_map.mp member
    cases impossible
  · rw [count_eq]
    exact layout.room
  · intro other member
    obtain ⟨line, inLines, restates⟩ := exists_of_mem_forall₂ all (mem_ofLines.mp member)
    rw [restates.layoutBits_eq]
    exact layout.narrow line (Labels.mem_instructions_iff.mp inLines)
  · intro other member operand inLine name refers
    obtain ⟨line, -, restates⟩ := exists_of_mem_forall₂ all (mem_ofLines.mp member)
    rw [restates.label?_eq_none operand inLine] at refers
    cases refers

namespace Program

variable {base : UInt16} {source : String} {program : Program} {rom : List UInt8}

theorem bytes_of_restated {others : List InstructionLine} (relistable : table.Relistable)
    (assembled : assemble table base source = .ok program) (whole : program.bytes = .ok rom)
    (restated : List.Forall₂ (InstructionLine.Restates program.labels) program.instructions
      others) :
    (assemble table base (Statement.print (Statement.ofLines others)) >>= bytes) = .ok rom := by
  obtain ⟨parsed, built⟩ := assemble_eq_ok_iff.mp assembled
  obtain ⟨words, encoded, joined⟩ := bytes_eq_ok_iff.mp whole
  have sayable : ∀ statement ∈ Statement.ofLines others, statement.Sayable table := by
    intro statement member
    obtain ⟨other, inOthers, rfl⟩ := List.mem_map.mp member
    obtain ⟨line, inLines, restates⟩ := exists_of_mem_forall₂ restated inOthers
    refine restates.sayable relistable (Statement.sayable_of_parse parsed _ ?_)
    exact Labels.mem_instructions_iff.mp inLines
  obtain ⟨copies, reparsed, alike⟩ := Statement.exists_copies_of_print sayable
  have layout : Statement.HasLayout (Statement.ofLines others) base :=
    (Labels.build_eq_ok_iff.mp built).1.restated restated
  have placed : Labels.build copies base =
      .ok (Labels.ofPositions (Statement.ofLines others) base) :=
    eq_ok_of_withoutPlace (Labels.build_alike alike base)
      (Labels.build_eq_ok_iff.mpr ⟨layout, rfl⟩)
  have again : assemble table base (Statement.print (Statement.ofLines others)) =
      .ok ⟨copies, Labels.ofPositions (Statement.ofLines others) base⟩ :=
    assemble_eq_ok_iff.mpr ⟨reparsed, placed⟩
  refine bind_eq_ok_iff.mpr ⟨_, again, ?_⟩
  -- The copies have other labels than the program, but no line names one.
  refine bytes_alike alike (bytes_eq_ok_iff.mpr ⟨words, ?_, joined⟩)
  rw [instructions, Statement.instructions_ofLines]
  exact forall₂_through restated.flip encoded fun other line word restates own =>
    restates.encode own _

/-- Under a table in which listings can be read, the listing of a program shows only instructions,
and their texts assemble to the same bytes. -/
theorem bytes_of_listing (relistable : table.Relistable)
    (succeeds : (assemble table base source >>= bytes) = .ok rom) :
    (∀ line ∈ Listing.ofRom table rom, ∃ instruction, line.instruction? = some instruction) ∧
      (assemble table base (String.intercalate "\n"
        ((Listing.instructions table rom).map Instruction.text)) >>= bytes) = .ok rom := by
  obtain ⟨program, assembled, whole⟩ := bind_eq_ok_iff.mp succeeds
  obtain ⟨words, encoded, rfl⟩ := bytes_eq_ok_iff.mp whole
  have wellFormed : ∀ line ∈ program.instructions, line.WellFormed table :=
    fun line member => (wellFormed_and_placed assembled member).1
  have shown := Listing.shown_of_encode relistable.distinct wellFormed encoded loadAddress
  constructor
  · intro line member
    obtain ⟨written, -, address, word, operands, rfl, -⟩ := exists_of_mem_forall₂ shown member
    exact ⟨_, rfl⟩
  · have spelled : ∀ line ∈ program.instructions,
        line.form.mnemonic = line.form.opcode.mnemonic :=
      fun line member => relistable.spelled line.form (wellFormed line member).listed
    obtain ⟨others, restated, texts⟩ := Listing.exists_restated spelled shown
    have again := bytes_of_restated relistable assembled whole restated
    rw [Statement.print_ofLines, ← texts] at again
    exact again

/-- A program of the machine as delivered has a listing of instructions only, which assembles to the
program again. -/
theorem bytes_of_listing_ofSource (source : String) (rom : List UInt8)
    (succeeds : (ofSource source >>= bytes) = .ok rom) :
    (∀ line ∈ Listing.ofRom .standard rom, ∃ instruction, line.instruction? = some instruction) ∧
      (ofSource (String.intercalate "\n"
        ((Listing.instructions .standard rom).map Instruction.text)) >>= bytes) = .ok rom :=
  bytes_of_listing Table.relistable_standard succeeds

/-- A loop with an indirect label, a scaled store, and registers with names of their own. -/
theorem bytes_of_listing_ofSource_loop : ∃ rom,
    (ofSource ".top\nldr r1, (.end)\nSTR R2, 0x10+2*$SP\nCMP zero, cmp\njmp .top\n.end" >>= bytes) =
        .ok rom ∧
      (Listing.instructions .standard rom).map Instruction.text =
        ["LDR $r1, (528)", "STR $r2, 16+2*$sp", "CMP $zero, $cmp", "JMP 512"] ∧
      (∀ line ∈ Listing.ofRom .standard rom, ∃ instruction,
        line.instruction? = some instruction) ∧
      (ofSource (String.intercalate "\n"
        ((Listing.instructions .standard rom).map Instruction.text)) >>= bytes) = .ok rom := by
  have succeeds : (ofSource
      ".top\nldr r1, (.end)\nSTR R2, 0x10+2*$SP\nCMP zero, cmp\njmp .top\n.end" >>= bytes) =
      .ok [0x15, 0x10, 0x21, 0, 0x97, 0x2E, 0x20, 0x10, 0x21, 0x0F, 0, 0, 0x3C, 2, 0, 0] := rfl
  exact ⟨_, succeeds, by decide, bytes_of_listing_ofSource _ _ succeeds⟩

end Program

end Tetrad
