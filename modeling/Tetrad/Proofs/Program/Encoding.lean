import Tetrad.Proofs.Program.Refusal
import Tetrad.Proofs.Program.Stream
import Tetrad.Proofs.Word.RoundTrip

namespace Tetrad

variable {table : Table} {labels : Labels} {line : InstructionLine} {instruction : Instruction}

theorem layoutBits_stored (modes : List Mode) :
    layoutBits (modes.map Mode.stored) = layoutBits modes := by
  rw [layoutBits, List.map_map, layoutBits]
  congr 3
  exact funext Mode.width_stored

namespace InstructionLine

theorem modes_of_relocate (relocated : line.relocate labels = .ok instruction) :
    instruction.modes = line.modes.map Mode.stored := by
  obtain ⟨-, located⟩ := relocate_eq_ok_iff.mp relocated
  exact Operand.modes_of_located located

theorem exists_fields_of_relocate (relocated : line.relocate labels = .ok instruction) :
    ∃ fields, instruction.Fields fields := by
  obtain ⟨-, located⟩ := relocate_eq_ok_iff.mp relocated
  refine exists_forall₂ fun operand member => ?_
  obtain ⟨written, -, at_⟩ := exists_of_mem_forall₂ located member
  exact Option.isSome_iff_exists.mp ((Operand.fields?_isSome_iff operand).mpr at_.label?_eq_none)

theorem encode_eq_ok_iff {word : UInt32} : line.encode labels = .ok word ↔
    ∃ instruction, line.relocate labels = .ok instruction ∧
      instruction.encode line.form = .ok word := by
  rw [encode, bind_eq_ok_iff]
  refine exists_congr fun instruction => and_congr_right fun _ => ?_
  cases instruction.encode line.form with
  | ok own => simp [pure, Except.pure]
  | error reason => cases reason <;> simp [throw, throwThe, MonadExceptOf.throw]

/-- An instruction line that was read and placed has a word: its relocated instruction passes every
check of the encoder. -/
theorem exists_encode (wellFormed : line.WellFormed table) (placed : line.Placed labels) :
    ∃ word, line.encode labels = .ok word := by
  obtain ⟨instruction, relocated⟩ := placed.exists_relocate
  have modes := modes_of_relocate relocated
  have admits : line.form.Admits instruction.modes := modes ▸ wellFormed.accepts.admits_stored
  have fits : Tetrad.layoutBits instruction.modes ≤ 32 := by
    rw [modes, layoutBits_stored]
    exact placed.fits
  obtain ⟨fields, has⟩ := exists_fields_of_relocate relocated
  have encoded := Instruction.encode_eq_ok_iff.mpr ⟨admits, fits, fields, has, rfl⟩
  exact ⟨_, encode_eq_ok_iff.mpr ⟨instruction, relocated, encoded⟩⟩

end InstructionLine

namespace Program

variable {base : UInt16} {source : String} {program : Program}

theorem assemble_eq_ok_iff : assemble table base source = .ok program ↔
    Statement.parse table source = .ok program.statements ∧
      Labels.build program.statements base = .ok program.labels := by
  obtain ⟨statements, labels⟩ := program
  simp only [assemble, bind_eq_ok_iff, pure, Except.pure, Except.ok.injEq, mk.injEq]
  constructor
  · rintro ⟨own, parsed, table, built, rfl, rfl⟩
    exact ⟨parsed, built⟩
  · rintro ⟨parsed, built⟩
    exact ⟨statements, parsed, labels, built, rfl, rfl⟩

theorem wellFormed_and_placed (assembled : assemble table base source = .ok program)
    (member : line ∈ program.instructions) :
    line.WellFormed table ∧ line.Placed program.labels := by
  obtain ⟨parsed, built⟩ := assemble_eq_ok_iff.mp assembled
  refine ⟨?_, Labels.placed_of_build built member⟩
  obtain ⟨statement, inSource, isLine⟩ := List.mem_filterMap.mp member
  cases statement with
  | declaration label => cases isLine
  | instruction own =>
    cases isLine
    exact Statement.wellFormed_of_parse parsed inSource

/-- Every instruction line of an assembled program has a word, and so the program has its bytes. -/
theorem exists_words (assembled : assemble table base source = .ok program) :
    ∃ words, List.Forall₂ (fun line word => line.encode program.labels = .ok word)
      program.instructions words ∧ program.bytes = .ok (words.flatMap wordBytes) := by
  have each : ∀ line ∈ program.instructions, ∃ word, line.encode program.labels = .ok word := by
    intro line member
    obtain ⟨wellFormed, placed⟩ := wellFormed_and_placed assembled member
    exact InstructionLine.exists_encode wellFormed placed
  obtain ⟨words, encoded⟩ := exists_forall₂ each
  exact ⟨words, encoded, bytes_eq_ok_iff.mpr ⟨words, encoded, rfl⟩⟩

theorem not_internal_of_assemble {error : AssemblyError}
    (failed : assemble table base source = .error error) : ¬ error.Internal := by
  rcases bind_eq_error_iff.mp failed with failed | ⟨statements, -, failed⟩
  · exact Statement.not_internal_of_parse failed
  · rcases bind_eq_error_iff.mp failed with failed | ⟨labels, -, impossible⟩
    · exact Labels.not_internal_of_build failed
    · cases impossible

/-- An assembled program always encodes, whether at once or as a stream: every instruction has a
word, and the bytes are those of the words in source order. A source that is refused on the way to
its bytes is refused for what it says. -/
theorem bytes_of_assemble (table : Table) (base : UInt16) (source : String) :
    (∀ program, assemble table base source = .ok program →
      ∃ words, List.Forall₂ (fun line word => line.encode program.labels = .ok word)
          program.instructions words ∧
        program.bytes = .ok (words.flatMap wordBytes) ∧
        program.stream.collect.1 = ⟨words.flatMap wordBytes, none⟩ ∧
        (words.flatMap wordBytes).length = 4 * program.instructions.length) ∧
    ∀ error, (assemble table base source >>= bytes) = .error error → ¬ error.Internal := by
  refine ⟨fun program assembled => ?_, fun error failed => ?_⟩
  · obtain ⟨words, encoded, whole⟩ := exists_words assembled
    refine ⟨words, encoded, whole, ?_, ?_⟩
    · rw [bytes_eq_collect] at whole
      exact ByteStream.Pulled.whole_eq_ok_iff.mp whole
    · rw [length_flatMap_wordBytes, encoded.length_eq]
  · rcases bind_eq_error_iff.mp failed with refused | ⟨program, assembled, unencoded⟩
    · exact not_internal_of_assemble refused
    · obtain ⟨words, -, whole⟩ := exists_words assembled
      rw [whole] at unencoded
      cases unencoded

/-- A loop that names its start and, behind an indirection, its end; and one without an end. -/
theorem bytes_of_assemble_loop :
    (∃ program, assemble Table.standard 0x200 ".top\nLDR r1, (.end)\nJMP .top\n.end" = .ok program ∧
      ∃ words, List.Forall₂ (fun line word => line.encode program.labels = .ok word)
          program.instructions words ∧
        program.bytes = .ok (words.flatMap wordBytes) ∧
        program.stream.collect.1 = ⟨words.flatMap wordBytes, none⟩ ∧
        (words.flatMap wordBytes).length = 4 * program.instructions.length) ∧
    ∃ error, (assemble Table.standard 0x200 ".top\nLDR r1, (.end)\nJMP .top" >>= bytes) =
        .error error ∧ ¬ error.Internal :=
  ⟨⟨_, rfl, (bytes_of_assemble Table.standard 0x200
      ".top\nLDR r1, (.end)\nJMP .top\n.end").1 _ rfl⟩,
    ⟨_, rfl, (bytes_of_assemble Table.standard 0x200 ".top\nLDR r1, (.end)\nJMP .top").2 _ rfl⟩⟩

end Program

end Tetrad
