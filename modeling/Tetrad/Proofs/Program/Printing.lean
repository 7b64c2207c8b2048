import Tetrad.Proofs.Operand.Printing
import Tetrad.Proofs.Program.Alike

namespace Tetrad

open Source

variable {table : Table} {line : InstructionLine} {label : Declaration}

theorem Table.lookup?_mnemonic {spelling : String} {form : Form}
    (found : table.lookup? spelling = some form) :
    form.mnemonic.toList.map Char.toLower = spelling.toList.map Char.toLower ∧
      table.lookup? form.mnemonic = some form := by
  obtain ⟨-, letters⟩ := mem_of_lookup? found
  exact ⟨eq_of_beq letters, (lookup?_congr table letters).trans found⟩

namespace Statement

/-- A line of text says the statement under a table. -/
inductive Sayable (table : Table) : Statement → Prop
  | declaration {label : Declaration} (valid : isLabelName label.name.toList = true) :
    Sayable table (.declaration label)
  | instruction {line : InstructionLine} (word : IsWord line.form.mnemonic.toList)
      (plain : line.form.mnemonic.toList.head? ≠ some '.')
      (found : table.lookup? line.form.mnemonic = some line.form)
      (accepts : line.form.Accepts line.modes)
      (writable : ∀ operand ∈ line.operands, operand.Writable) :
    Sayable table (.instruction line)

/-- What is read from a row can be said again. -/
theorem sayable_of_reads {row : List Lexeme} {part : List Statement} (reads : Reads table row part)
    (words : ∀ field ∈ row, IsWord field.text.toList) :
    ∀ statement ∈ part, Sayable table statement := by
  cases reads with
  | blank => exact nofun
  | declarations dotted each =>
    intro statement member
    obtain ⟨field, -, declared⟩ := exists_of_mem_forall₂ each member
    obtain ⟨label, read, rfl⟩ := map_eq_ok_iff.mp declared
    obtain ⟨written, -⟩ := Declaration.parse_eq_ok_iff.mp read
    exact .declaration (readLabel?_eq_some_iff.mp written).2
  | @instruction first operands form line plain found read =>
    intro statement member
    cases List.mem_singleton.mp member
    obtain ⟨rfl, -, arguments, accepts⟩ := InstructionLine.parse_eq_ok_iff.mp read
    obtain ⟨lowered, again⟩ := Table.lookup?_mnemonic found
    refine .instruction ?_ ?_ again accepts ?_
    · exact isWord_of_map_toLower lowered (words first List.mem_cons_self)
    · exact head?_ne_of_map_toLower rfl lowered plain
    · intro operand inLine
      obtain ⟨argument, inArguments, rfl⟩ := List.mem_map.mp inLine
      obtain ⟨field, -, parsed⟩ := exists_of_mem_forall₂ arguments inArguments
      obtain ⟨-, -, resolved⟩ := Argument.parse_eq_ok_iff.mp parsed
      exact ⟨inRange_of_resolve resolved, Operand.named_of_resolve resolved⟩

theorem sayable_of_parse {source : String} {statements : List Statement}
    (parsed : parse table source = .ok statements) :
    ∀ statement ∈ statements, Sayable table statement := by
  intro statement member
  obtain ⟨parts, reads, rfl⟩ := parse_eq_ok_iff.mp parsed
  obtain ⟨part, inParts, inPart⟩ := List.mem_flatten.mp member
  obtain ⟨row, inRows, own⟩ := exists_of_mem_forall₂ reads inParts
  refine sayable_of_reads own ?_ statement inPart
  intro field inRow
  obtain ⟨⟨text, number⟩, -, rfl⟩ := List.mem_map.mp inRows
  exact isWord_of_mem_fields inRow

end Statement

section

variable {mnemonic : String} {operands : List Operand}

theorem toList_commandText_of_ne_nil (several : operands ≠ []) :
    (commandText mnemonic operands).toList =
      mnemonic.toList ++ ' ' :: [',', ' '].intercalate (operands.map (·.text.toList)) := by
  unfold commandText
  split
  · exact absurd rfl several
  · simp [String.toList_intercalate, Function.comp_def]

theorem words_commandText (own : IsWord mnemonic.toList)
    (all : ∀ operand ∈ operands, IsWord operand.text.toList) :
    words (splitComment (commandText mnemonic operands).toList).1 =
      mnemonic.toList :: operands.map (·.text.toList) := by
  by_cases none : operands = []
  · rw [none, commandText, splitComment_of_uncommented own.uncommented]
    exact words_of_plain own.nonempty own.plain
  · rw [toList_commandText_of_ne_nil none]
    exact words_command own (List.forall_mem_map.mpr all)

theorem lineFeed_not_mem_commandText (own : IsWord mnemonic.toList)
    (all : ∀ operand ∈ operands, IsWord operand.text.toList) :
    '\n' ∉ (commandText mnemonic operands).toList := by
  by_cases none : operands = []
  · rw [none, commandText]
    exact own.not_mem_lineFeed
  · rw [toList_commandText_of_ne_nil none]
    simp [own.not_mem_lineFeed, not_mem_intercalate (List.forall_mem_map.mpr all)]

end

namespace Statement

/-- The fields of a statement, as its text writes them. -/
def fieldTexts : Statement → List (List Char)
  | declaration label => ['.' :: label.name.toList]
  | instruction line => line.form.mnemonic.toList :: line.operands.map (·.text.toList)

variable {statement : Statement}

theorem words_text (sayable : Sayable table statement) :
    words (splitComment statement.text.toList).1 = statement.fieldTexts ∧
      '\n' ∉ statement.text.toList := by
  cases sayable with
  | @declaration label valid =>
    have own : IsWord (Operand.label label.name).text.toList := by
      refine Operand.isWord_text ?_
      rintro name same
      cases same
      exact valid
    have dotted : (Operand.label label.name).text.toList = '.' :: label.name.toList :=
      String.toList_append
    refine ⟨?_, own.not_mem_lineFeed⟩
    rw [fieldTexts, ← dotted, ← words_of_plain own.nonempty own.plain]
    exact congrArg (fun cut => words cut.1) (splitComment_of_uncommented own.uncommented)
  | @instruction line word plain found accepts writable =>
    have all : ∀ operand ∈ line.operands, IsWord operand.text.toList :=
      fun operand member => Operand.isWord_text (writable operand member).named
    exact ⟨words_commandText word all, lineFeed_not_mem_commandText word all⟩

theorem exists_arguments {fields : List Lexeme} {operands : List Operand}
    (texts : fields.map (·.text.toList) = operands.map (·.text.toList))
    (writable : ∀ operand ∈ operands, operand.Writable) :
    ∃ arguments, List.Forall₂ (fun field argument => Argument.parse field = .ok argument) fields
      arguments ∧ arguments.map Argument.operand = operands := by
  induction operands generalizing fields with
  | nil =>
    cases List.map_eq_nil_iff.mp texts
    exact ⟨[], .nil, rfl⟩
  | cons operand rest ih =>
    obtain ⟨field, fields, rfl, own, later⟩ := List.map_eq_cons_iff.mp texts
    obtain ⟨first, others⟩ := List.forall_mem_cons.mp writable
    obtain ⟨arguments, parsed, rfl⟩ := ih later others
    refine ⟨⟨operand, field.text, field.location⟩ :: arguments, .cons ?_ parsed, rfl⟩
    refine Argument.parse_eq_ok_iff.mpr ⟨rfl, rfl, ?_⟩
    rw [String.toList_inj.mp own]
    exact Operand.resolve_text first

/-- A row with the fields of a statement reads as a copy of it. -/
theorem exists_copy_of_texts (sayable : Sayable table statement) {row : List Lexeme}
    (texts : row.map (·.text.toList) = statement.fieldTexts) :
    ∃ copy, Reads table row [copy] ∧ Alike statement copy := by
  cases sayable with
  | @declaration label valid =>
    obtain ⟨field, others, rfl, own, none⟩ := List.map_eq_cons_iff.mp texts
    cases List.map_eq_nil_iff.mp none
    refine ⟨.declaration ⟨label.name, field.location⟩, ?_, .declaration rfl⟩
    refine .declarations (by rw [own]; rfl) (.cons (map_eq_ok_iff.mpr ⟨_, ?_, rfl⟩) .nil)
    refine Declaration.parse_eq_ok_iff.mpr ⟨?_, rfl⟩
    rw [own]
    exact readLabel?_dot valid
  | @instruction line word plain found accepts writable =>
    obtain ⟨first, fields, rfl, own, others⟩ := List.map_eq_cons_iff.mp texts
    obtain ⟨arguments, parsed, same⟩ := exists_arguments others writable
    have copied : Alike (.instruction line) (.instruction ⟨line.form, arguments, first.location⟩) :=
      .instruction ⟨rfl, same⟩
    have modes : (InstructionLine.mk line.form arguments first.location).modes = line.modes :=
      congrArg (List.map Operand.mode) same
    rw [← own] at plain
    rw [← String.toList_inj.mp own] at found
    refine ⟨_, .instruction plain found ?_, copied⟩
    exact InstructionLine.parse_eq_ok_iff.mpr ⟨rfl, rfl, parsed, modes ▸ accepts⟩

/-- Statements as source text, one on each line. -/
def print (statements : List Statement) : String :=
  String.intercalate "\n" (statements.map text)

theorem exists_copies_of_rows {statements : List Statement}
    (sayable : ∀ statement ∈ statements, Sayable table statement) {rows : List (List Lexeme)}
    (texts : rows.map (List.map (·.text.toList)) = statements.map fieldTexts) :
    ∃ copies parts, List.Forall₂ (Reads table) rows parts ∧ parts.flatten = copies ∧
      List.Forall₂ Alike statements copies := by
  induction statements generalizing rows with
  | nil =>
    cases List.map_eq_nil_iff.mp texts
    exact ⟨[], [], .nil, rfl, .nil⟩
  | cons statement rest ih =>
    obtain ⟨row, others, rfl, own, later⟩ := List.map_eq_cons_iff.mp texts
    obtain ⟨first, sayable⟩ := List.forall_mem_cons.mp sayable
    obtain ⟨copy, read, same⟩ := exists_copy_of_texts first own
    obtain ⟨copies, parts, reads, joined, alike⟩ := ih sayable later
    exact ⟨copy :: copies, [copy] :: parts, .cons read reads, congrArg (copy :: ·) joined,
      .cons same alike⟩

theorem exists_copies_of_print {statements : List Statement}
    (sayable : ∀ statement ∈ statements, Sayable table statement) :
    ∃ copies, parse table (print statements) = .ok copies ∧
      List.Forall₂ Alike statements copies := by
  by_cases none : statements = []
  · -- The text without statements still has one row, and that is blank.
    subst none
    exact ⟨[], parse_eq_ok_iff.mpr ⟨[[]], .cons .blank .nil, rfl⟩, .nil⟩
  · have flat : ∀ written ∈ statements.map text, '\n' ∉ written.toList :=
      List.forall_mem_map.mpr fun statement member => (words_text (sayable statement member)).2
    have texts := texts_rows_intercalate (mt List.map_eq_nil_iff.mp none) flat
    have each : (statements.map text).map (fun written => words (splitComment written.toList).1) =
        statements.map fieldTexts := by
      rw [List.map_map]
      exact List.map_congr_left fun statement member => (words_text (sayable statement member)).1
    rw [each] at texts
    obtain ⟨copies, parts, reads, rfl, alike⟩ := exists_copies_of_rows sayable texts
    exact ⟨_, parse_eq_ok_iff.mpr ⟨parts, reads, rfl⟩, alike⟩

end Statement

/-- Two sources say one program from a base on: both have the same labels and bytes, or both are
refused where labels are placed, for one cause. -/
inductive Program.Agree (table : Table) (base : UInt16) (source other : String) : Prop
  | assembled {program copy : Program} {rom : List UInt8}
      (first : assemble table base source = .ok program)
      (second : assemble table base other = .ok copy) (labels : copy.labels = program.labels)
      (whole : program.bytes = .ok rom) (same : copy.bytes = .ok rom)
  | refused {statements copies : List Statement} {error twin : AssemblyError}
      (parsed : Statement.parse table source = .ok statements)
      (first : Labels.build statements base = .error error)
      (reparsed : Statement.parse table other = .ok copies)
      (second : Labels.build copies base = .error twin) (cause : twin.cause = error.cause)

theorem Program.agree_of_alike {base : UInt16} {source other : String}
    {statements copies : List Statement} (parsed : Statement.parse table source = .ok statements)
    (reparsed : Statement.parse table other = .ok copies)
    (alike : List.Forall₂ Statement.Alike statements copies) : Agree table base source other := by
  have placed := Labels.build_alike alike base
  cases built : Labels.build statements base with
  | error error =>
    obtain ⟨twin, failed, cause⟩ := exists_error_of_withoutPlace placed built
    exact .refused parsed built reparsed failed cause
  | ok labels =>
    have first : assemble table base source = .ok ⟨statements, labels⟩ :=
      assemble_eq_ok_iff.mpr ⟨parsed, built⟩
    have second : assemble table base other = .ok ⟨copies, labels⟩ :=
      assemble_eq_ok_iff.mpr ⟨reparsed, eq_ok_of_withoutPlace placed built⟩
    obtain ⟨words, -, whole⟩ := exists_words first
    exact .assembled first second rfl whole (bytes_alike alike whole)

/-- The text of a parsed source is parsed as the same statements, and assembled as the same
program. -/
theorem Statement.parse_print (table : Table) (source : String) (statements : List Statement)
    (parsed : parse table source = .ok statements) :
    ∃ copies, parse table (print statements) = .ok copies ∧ List.Forall₂ Alike statements copies ∧
      ∀ base, Program.Agree table base source (print statements) := by
  obtain ⟨copies, reparsed, alike⟩ := exists_copies_of_print (sayable_of_parse parsed)
  exact ⟨copies, reparsed, alike, fun base => Program.agree_of_alike parsed reparsed alike⟩

/-- A table with two forms for one mnemonic, the second never found. -/
def Table.doubled : Table :=
  ⟨[⟨"Go!", .jump .always, [.ofList [.label, .indexedScaled]]⟩,
    ⟨"GO!", .halt, []⟩,
    ⟨"tAke", .load, [registerOnly, .ofList [.label, .indirect, .pcRelative]]⟩]⟩

/-- A source in mixed case under that table, with two labels on a line, hexadecimal numbers, a
register without its sigil and a comment. -/
theorem Statement.parse_print_doubled :
    ∃ statements, parse .doubled ".a .b // twice\ngo! 0x10+0X2*R3\nTAKE Zero,,(.a)\nGO! .c" =
        .ok statements ∧
      print statements = ".a\n.b\nGo! 16+2*$r3\ntAke $zero, (.a)\nGo! .c" ∧
      ∃ copies, parse .doubled (print statements) = .ok copies ∧
        List.Forall₂ Alike statements copies ∧
        ∀ base, Program.Agree .doubled base
          ".a .b // twice\ngo! 0x10+0X2*R3\nTAKE Zero,,(.a)\nGO! .c" (print statements) :=
  ⟨_, rfl, by decide, parse_print .doubled _ _ rfl⟩

end Tetrad
