import Tetrad.Program.Parse
import Tetrad.Proofs.Operand.Resolution

namespace Tetrad

/-- An instruction line that a table can say. -/
structure InstructionLine.WellFormed (table : Table) (line : InstructionLine) : Prop where
  listed : line.form ∈ table.forms
  accepts : line.form.Accepts line.modes
  written : ∀ argument ∈ line.arguments, Operand.resolve argument.text = .ok argument.operand

theorem InstructionLine.WellFormed.inRange {table : Table} {line : InstructionLine}
    (wellFormed : line.WellFormed table) : ∀ operand ∈ line.operands, operand.InRange := by
  intro operand member
  obtain ⟨argument, inLine, rfl⟩ := List.mem_map.mp member
  exact inRange_of_resolve (wellFormed.written argument inLine)

theorem Declaration.parse_eq_ok_iff {field : Source.Lexeme} {label : Declaration} :
    Declaration.parse field = .ok label ↔
      readLabel? field.text.toList = some label.name.toList ∧
        label.location = field.location := by
  unfold Declaration.parse
  obtain ⟨name, location⟩ := label
  cases readLabel? field.text.toList with
  | none => simp
  | some read =>
    simp only [Except.ok.injEq, Declaration.mk.injEq, Option.some.injEq]
    rw [← String.toList_inj, String.toList_ofList, eq_comm (a := location)]

theorem Argument.parse_eq_ok_iff {field : Source.Lexeme} {argument : Argument} :
    Argument.parse field = .ok argument ↔ argument.text = field.text ∧
      argument.location = field.location ∧ Operand.resolve field.text = .ok argument.operand := by
  unfold Argument.parse
  obtain ⟨operand, text, location⟩ := argument
  cases Operand.resolve field.text with
  | ok operand => simp [eq_comm, and_comm, and_assoc]
  | error reason => cases reason <;> simp

namespace InstructionLine

theorem misplaced?_eq_none_iff {form : Form} {arguments : List Argument} :
    misplaced? form arguments = none ↔
      ∀ pair ∈ form.operands.zip arguments, pair.1.contains pair.2.operand.mode = true := by
  have search := @find?_zipIdx_eq_none_iff _ (form.operands.zip arguments)
    fun pair => !pair.1.contains pair.2.operand.mode
  unfold misplaced?
  rw [Option.map_eq_none_iff]
  exact search.trans (by simp)

theorem inconsistent?_eq_none_iff {form : Form} {arguments : List Argument} :
    inconsistent? form arguments = none ↔
      ∀ a ∈ form.atFree arguments, ∀ b ∈ form.atFree arguments,
        a.operand.mode.tag = b.operand.mode.tag := by
  have checked : inconsistent? form arguments = none ↔
      sameTags ((form.atFree arguments).map (·.operand.mode.tag)) = true := by
    unfold inconsistent?
    cases form.atFree arguments <;> simp [sameTags]
  rw [checked, sameTags_iff]
  simp

/-- The checks of the parser are that the form accepts the modes. -/
theorem accepts_iff {form : Form} {arguments : List Argument} :
    form.Accepts (arguments.map (·.operand.mode)) ↔ arguments.length = form.arity ∧
      misplaced? form arguments = none ∧ inconsistent? form arguments = none := by
  rw [misplaced?_eq_none_iff, inconsistent?_eq_none_iff]
  refine Form.fits_iff.trans ?_
  simp only [Form.SharesTag, Form.atFree_map, List.zip_map_right, List.length_map,
    List.forall_mem_map, Prod.map_fst, Prod.map_snd, id_eq]

/-- The checks of a line, in the order in which they fail. -/
theorem parse_eq (form : Form) (location : Location) (operands : List Source.Lexeme) (last : Bool) :
    parse form location operands last =
      if operands.length < form.arity ∧ last then
        .error ⟨location, .unexpectedEnd form.mnemonic form.arity⟩
      else if operands.length ≠ form.arity then
        .error ⟨location, .arityMismatch form.mnemonic form.arity operands.length⟩
      else (operands.mapM Argument.parse).bind fun arguments =>
        match misplaced? form arguments, inconsistent? form arguments with
        | some error, _ => .error error
        | none, some error => .error error
        | none, none => .ok ⟨form, arguments, location⟩ := by
  unfold parse
  split
  · rfl
  · split
    · rfl
    · cases operands.mapM Argument.parse with
      | error error => rfl
      | ok arguments =>
        dsimp only [bind, Except.bind]
        cases misplaced? form arguments with
        | some error => rfl
        | none => cases inconsistent? form arguments <;> rfl

/-- A line is parsed when its operands are readable and its form accepts their modes. -/
theorem parse_eq_ok_iff {form : Form} {location : Location} {operands : List Source.Lexeme}
    {last : Bool} {line : InstructionLine} :
    parse form location operands last = .ok line ↔
      line.form = form ∧ line.location = location ∧
        List.Forall₂ (fun field argument => Argument.parse field = .ok argument) operands
          line.arguments ∧ form.Accepts line.modes := by
  obtain ⟨own, arguments, place⟩ := line
  have modes : (InstructionLine.mk own arguments place).modes = arguments.map (·.operand.mode) :=
    List.map_map
  rw [parse_eq, modes, accepts_iff]
  constructor
  · intro parsed
    split at parsed
    · cases parsed
    · split at parsed
      · cases parsed
      · next arity =>
        obtain ⟨found, read, parsed⟩ := bind_eq_ok_iff.mp parsed
        split at parsed
        · cases parsed
        · cases parsed
        · next legal consistent =>
          cases parsed
          have read := mapM_eq_ok_iff_forall₂.mp read
          exact ⟨rfl, rfl, read, read.length_eq ▸ not_not.mp arity, legal, consistent⟩
  · rintro ⟨rfl, rfl, read, arity, legal, consistent⟩
    dsimp only at *
    have length : operands.length = own.arity := read.length_eq.trans arity
    rw [if_neg (by omega), if_neg (by omega), mapM_eq_ok_iff_forall₂.mpr read]
    simp only [Except.bind, legal, consistent]

end InstructionLine

section Rows

open Source

variable {table : Table} {line : InstructionLine}

theorem isSome_after?_iff {mark : Char} {text : List Char} :
    (after? mark text).isSome = true ↔ text.head? = some mark := by
  cases text with
  | nil => simp [after?]
  | cons first rest => by_cases same : first = mark <;> simp [after?, same]

/-- An instruction line that is read where fields follow is read where none do. -/
theorem InstructionLine.parse_eq_ok_any {form : Form} {location : Location}
    {operands : List Lexeme} {last : Bool} :
    parse form location operands last = .ok line ↔ parse form location operands false = .ok line :=
  parse_eq_ok_iff.trans parse_eq_ok_iff.symm

namespace Statement

/-- A row of fields reads as statements: none, the labels of its fields, or one instruction. -/
inductive Reads (table : Table) : List Lexeme → List Statement → Prop
  | blank : Reads table [] []
  | declarations {first : Lexeme} {rest : List Lexeme} {statements : List Statement}
      (dotted : first.text.toList.head? = some '.')
      (each : List.Forall₂ (fun field statement =>
        (Declaration.parse field).map declaration = .ok statement) (first :: rest) statements) :
      Reads table (first :: rest) statements
  | instruction {first : Lexeme} {operands : List Lexeme} {form : Form} {line : InstructionLine}
      (plain : first.text.toList.head? ≠ some '.') (found : table.lookup? first.text = some form)
      (read : InstructionLine.parse form first.location operands false = .ok line) :
      Reads table (first :: operands) [.instruction line]

theorem parseRow_eq_ok_iff {last : Bool} {row : List Lexeme} {statements : List Statement} :
    parseRow table last row = .ok statements ↔ Reads table row statements := by
  cases row with
  | nil =>
    constructor
    · rintro same
      cases same
      exact .blank
    · rintro ⟨⟩
      rfl
  | cons first rest =>
    rw [parseRow]
    by_cases dotted : first.text.toList.head? = some '.'
    · rw [if_pos (isSome_after?_iff.mpr dotted), mapM_eq_ok_iff_forall₂]
      constructor
      · exact fun each => .declarations dotted each
      · rintro (_ | ⟨_, each⟩ | ⟨plain, _, _⟩)
        · exact each
        · exact absurd dotted plain
    · rw [if_neg (mt isSome_after?_iff.mp dotted)]
      constructor
      · intro parsed
        split at parsed
        · next form found =>
          obtain ⟨line, read, made⟩ := bind_eq_ok_iff.mp parsed
          cases made
          exact .instruction dotted found (InstructionLine.parse_eq_ok_any.mp read)
        · cases parsed
      · rintro (_ | ⟨impossible, _⟩ | ⟨_, found, read⟩)
        · exact absurd impossible dotted
        · rw [found]
          exact bind_eq_ok_iff.mpr ⟨_, InstructionLine.parse_eq_ok_any.mpr read, rfl⟩

theorem map_fst_markLast (rows : List (List Lexeme)) : (markLast rows).map Prod.fst = rows := by
  unfold markLast
  induction rows with
  | nil => rfl
  | cons row rest ih => exact congrArg (row :: ·) ih

/-- Rows are parsed when each of them reads as something. -/
theorem parseRows_eq_ok_iff {rows : List (List Lexeme)} {statements : List Statement} :
    parseRows table rows = .ok statements ↔
      ∃ parts, List.Forall₂ (Reads table) rows parts ∧ statements = parts.flatten := by
  have each (parts : List (List Statement)) :
      List.Forall₂ (fun row part => parseRow table row.2 row.1 = .ok part)
        (markLast rows) parts ↔ List.Forall₂ (Reads table) rows parts := by
    simp only [parseRow_eq_ok_iff]
    conv_rhs => rw [← map_fst_markLast rows]
    rw [List.forall₂_map_left_iff]
  unfold parseRows
  rw [bind_eq_ok_iff]
  constructor
  · rintro ⟨parts, read, joined⟩
    cases joined
    exact ⟨parts, (each parts).mp (mapM_eq_ok_iff_forall₂.mp read), rfl⟩
  · rintro ⟨parts, reads, rfl⟩
    exact ⟨parts, mapM_eq_ok_iff_forall₂.mpr ((each parts).mpr reads), rfl⟩

theorem parse_eq_ok_iff {source : String} {statements : List Statement} :
    parse table source = .ok statements ↔
      ∃ parts, List.Forall₂ (Reads table) (rows source) parts ∧ statements = parts.flatten :=
  parseRows_eq_ok_iff

/-- Every instruction line of a parsed source is one that the table can say. -/
theorem wellFormed_of_parse {source : String} {statements : List Statement}
    (parsed : parse table source = .ok statements) (member : instruction line ∈ statements) :
    line.WellFormed table := by
  obtain ⟨parts, reads, rfl⟩ := parse_eq_ok_iff.mp parsed
  obtain ⟨part, inParts, inPart⟩ := List.mem_flatten.mp member
  obtain ⟨row, -, own⟩ := exists_of_mem_forall₂ reads inParts
  cases own with
  | blank => cases inPart
  | declarations dotted each =>
    -- A row of declarations holds no instruction.
    obtain ⟨field, -, declared⟩ := exists_of_mem_forall₂ each inPart
    obtain ⟨label, -, made⟩ := map_eq_ok_iff.mp declared
    cases made
  | instruction plain found read =>
    cases List.mem_singleton.mp inPart
    obtain ⟨rfl, -, arguments, accepts⟩ := InstructionLine.parse_eq_ok_iff.mp read
    refine ⟨List.mem_of_find?_eq_some found, accepts, ?_⟩
    intro argument inLine
    obtain ⟨field, -, argumentRead⟩ := exists_of_mem_forall₂ arguments inLine
    obtain ⟨text, -, resolved⟩ := Argument.parse_eq_ok_iff.mp argumentRead
    rw [text]
    exact resolved

end Statement

end Rows

end Tetrad
