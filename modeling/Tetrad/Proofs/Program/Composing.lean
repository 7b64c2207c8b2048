import Tetrad.Proofs.Program.Joining
import Tetrad.Proofs.Program.Refusal

/-!
# Sources read part by part

A source is read line by line, so what two sources with a line feed between them come to is in what
each comes to (`Statement.Composes`). Reading rows further down gives the same statements, or the
same error, further down (`Statement.parseRows_below`). The rows in front of others are read as if
these were not there, with one exception: an instruction that lacks operands at the end of the input
lacks them in its line when other fields follow (`Statement.Followed`).
-/

namespace Tetrad

open Source

/-- The declaration a number of lines further down. -/
def Declaration.below (count : Nat) (label : Declaration) : Declaration :=
  { label with location := label.location.below count }

def Argument.below (count : Nat) (argument : Argument) : Argument :=
  { argument with location := argument.location.below count }

def InstructionLine.below (count : Nat) (line : InstructionLine) : InstructionLine :=
  { line with
    arguments := line.arguments.map (Argument.below count)
    location := line.location.below count }

def Statement.below (count : Nat) : Statement → Statement
  | declaration label => declaration (label.below count)
  | instruction line => instruction (line.below count)

def AssemblyError.below (count : Nat) (error : AssemblyError) : AssemblyError :=
  { error with location := error.location.below count }

/-- A result with its places a number of lines further down, those of a value by `move`. -/
def lower {α : Type} (count : Nat) (move : α → α) (result : Except AssemblyError α) :
    Except AssemblyError α :=
  (result.mapError (AssemblyError.below count)).map move

section Lower

variable {α β : Type} {count : Nat} {move : α → α}

theorem lower_bind {shift : β → β} {result : Except AssemblyError α}
    {next following : α → Except AssemblyError β}
    (further : ∀ value, following (move value) = lower count shift (next value)) :
    lower count move result >>= following = lower count shift (result >>= next) := by
  cases result with
  | error reason => rfl
  | ok value => exact further value

theorem mapM_lower {f : Lexeme → Except AssemblyError α}
    (each : ∀ field, f (field.below count) = lower count move (f field)) (fields : List Lexeme) :
    (fields.map (Lexeme.below count)).mapM f = lower count (List.map move) (fields.mapM f) := by
  induction fields with
  | nil => rfl
  | cons field rest ih =>
    rw [List.map_cons, List.mapM_cons, List.mapM_cons, each, ih]
    exact lower_bind fun value => lower_bind fun values => rfl

end Lower

theorem Declaration.parse_below (count : Nat) (field : Lexeme) :
    Declaration.parse (field.below count) =
      lower count (Declaration.below count) (Declaration.parse field) := by
  unfold Declaration.parse Lexeme.below
  dsimp only
  cases readLabel? field.text.toList <;> rfl

theorem Argument.parse_below (count : Nat) (field : Lexeme) :
    Argument.parse (field.below count) =
      lower count (Argument.below count) (Argument.parse field) := by
  unfold Argument.parse Lexeme.below
  dsimp only
  cases Operand.resolve field.text with
  | ok operand => rfl
  | error reason => cases reason <;> rfl

namespace InstructionLine

theorem misplaced?_below (count : Nat) (form : Form) (arguments : List Argument) :
    misplaced? form (arguments.map (Argument.below count)) =
      (misplaced? form arguments).map (AssemblyError.below count) := by
  rw [misplaced?, misplaced?, List.zip_map_right, List.zipIdx_map, List.find?_map, Option.map_map,
    Option.map_map]
  rfl

theorem inconsistent?_below (count : Nat) (form : Form) (arguments : List Argument) :
    inconsistent? form (arguments.map (Argument.below count)) =
      (inconsistent? form arguments).map (AssemblyError.below count) := by
  rw [inconsistent?, inconsistent?, Form.atFree_map]
  cases form.atFree arguments with
  | nil => rfl
  | cons first others =>
    rw [List.map_cons]
    dsimp only
    rw [List.find?_map, Option.map_map, Option.map_map]
    rfl

theorem parse_below (count : Nat) (form : Form) (place : Location) (operands : List Lexeme)
    (last : Bool) :
    parse form (place.below count) (operands.map (Lexeme.below count)) last =
      lower count (InstructionLine.below count) (parse form place operands last) := by
  rw [parse_eq, parse_eq, List.length_map]
  split
  · rfl
  · split
    · rfl
    · rw [mapM_lower (Argument.parse_below count)]
      refine lower_bind fun arguments => ?_
      rw [misplaced?_below, inconsistent?_below]
      cases misplaced? form arguments with
      | some error => rfl
      | none => cases inconsistent? form arguments <;> rfl

end InstructionLine

namespace Statement

variable {table : Table} {error : AssemblyError} {row : List Lexeme}

theorem parseRow_below (count : Nat) (table : Table) (last : Bool) (row : List Lexeme) :
    parseRow table last (row.map (Lexeme.below count)) =
      lower count (List.map (Statement.below count)) (parseRow table last row) := by
  cases row with
  | nil => rfl
  | cons first rest =>
    have text : (first.below count).text = first.text := rfl
    rw [List.map_cons, parseRow, parseRow, text]
    split
    · rw [← List.map_cons]
      refine mapM_lower (fun field => ?_) _
      rw [Declaration.parse_below]
      cases Declaration.parse field <;> rfl
    · split
      · next form found =>
        have place : (first.below count).location = first.location.below count := rfl
        rw [place, InstructionLine.parse_below]
        exact lower_bind fun line => rfl
      · rfl

/-- Rows further down say the same, further down. -/
theorem parseRows_below (count : Nat) (table : Table) (rows : List (List Lexeme)) :
    parseRows table (rows.map (List.map (Lexeme.below count))) =
      lower count (List.map (Statement.below count)) (parseRows table rows) := by
  have blank (rows : List (List Lexeme)) :
      (rows.map (List.map (Lexeme.below count))).all List.isEmpty = rows.all List.isEmpty := by
    rw [List.all_map]
    congr 1
    funext row
    exact List.isEmpty_map
  induction rows with
  | nil => rfl
  | cons row rest ih =>
    rw [List.map_cons, parseRows_cons, parseRows_cons, parseRow_below, ih, blank]
    refine lower_bind fun part => lower_bind fun others => ?_
    rw [← List.map_append]
    rfl

end Statement

/-- The input ends before an instruction has its operands. -/
def AssemblyError.Ended (error : AssemblyError) : Prop :=
  ∃ mnemonic expected, error.cause = .unexpectedEnd mnemonic expected

namespace Statement

variable {table : Table} {error : AssemblyError} {row : List Lexeme}
  {above later : List (List Lexeme)}

/-- What the error of a row is when a field follows in a later one. If it was the end of the input,
then the instruction now has the operands of its row, which are too few; else it is the same. -/
inductive Followed (row : List Lexeme) : AssemblyError → AssemblyError → Prop
  | same {error : AssemblyError} (other : ¬ error.Ended) : Followed row error error
  | ended {first : Lexeme} {operands : List Lexeme} {mnemonic : String} {expected : Nat}
      (own : row = first :: operands) (few : operands.length < expected) :
      Followed row ⟨first.location, .unexpectedEnd mnemonic expected⟩
        ⟨first.location, .arityMismatch mnemonic expected operands.length⟩

theorem not_ended_of_declaration {field : Lexeme}
    (failed : Declaration.parse field = .error error) : ¬ error.Ended := by
  unfold Declaration.parse at failed
  rintro ⟨mnemonic, expected, cause⟩
  split at failed <;> cases failed
  cases cause

theorem not_ended_of_argument {field : Lexeme} (failed : Argument.parse field = .error error) :
    ¬ error.Ended := by
  unfold Argument.parse at failed
  rintro ⟨mnemonic, expected, cause⟩
  split at failed <;> cases failed <;> cases cause

/-- The input ends nowhere but behind the last field. -/
theorem not_ended_of_instruction {form : Form} {place : Location} {operands : List Lexeme}
    (failed : InstructionLine.parse form place operands false = .error error) : ¬ error.Ended := by
  rw [InstructionLine.parse_eq, if_neg (by simp)] at failed
  split at failed
  · cases failed
    rintro ⟨mnemonic, expected, cause⟩
    cases cause
  · rcases bind_eq_error_iff.mp failed with unread | ⟨arguments, -, refused⟩
    · obtain ⟨field, -, unread⟩ := exists_of_mapM_eq_error unread
      exact not_ended_of_argument unread
    · rintro ⟨mnemonic, expected, cause⟩
      split at refused
      · next found =>
        cases refused
        obtain ⟨argument, -, position, mode, rfl⟩ := InstructionLine.exists_of_misplaced? found
        cases cause
      · next found =>
        cases refused
        obtain ⟨argument, -, mode, other, rfl⟩ := InstructionLine.exists_of_inconsistent? found
        cases cause
      · cases refused

theorem followed_of_instruction {form : Form} {first : Lexeme} {operands : List Lexeme}
    {last : Bool}
    (failed : InstructionLine.parse form first.location operands last = .error error) :
    ∃ other, InstructionLine.parse form first.location operands false = .error other ∧
      Followed (first :: operands) error other := by
  by_cases short : operands.length < form.arity ∧ last
  · rw [InstructionLine.parse_eq, if_pos short] at failed
    cases failed
    refine ⟨_, ?_, .ended rfl short.1⟩
    rw [InstructionLine.parse_eq, if_neg (by simp), if_pos short.1.ne]
  · have again : InstructionLine.parse form first.location operands false = .error error := by
      rw [InstructionLine.parse_eq, if_neg short] at failed
      rw [InstructionLine.parse_eq, if_neg (by simp), failed]
    exact ⟨error, again, .same (not_ended_of_instruction again)⟩

theorem followed_of_parseRow {last : Bool} (failed : parseRow table last row = .error error) :
    ∃ other, parseRow table false row = .error other ∧ Followed row error other := by
  cases row with
  | nil => cases failed
  | cons first rest =>
    rw [parseRow] at failed ⊢
    split at failed
    · next dotted =>
      obtain ⟨field, -, own⟩ := exists_of_mapM_eq_error failed
      rw [if_pos dotted]
      exact ⟨error, failed, .same (not_ended_of_declaration (map_eq_error_iff.mp own))⟩
    · next plain =>
      rw [if_neg plain]
      split at failed
      · next form found =>
        rcases bind_eq_error_iff.mp failed with failed | ⟨line, -, impossible⟩
        · obtain ⟨other, again, followed⟩ := followed_of_instruction failed
          exact ⟨other, bind_eq_error_iff.mpr (.inl again), followed⟩
        · cases impossible
      · next unknown =>
        cases failed
        refine ⟨_, rfl, .same ?_⟩
        rintro ⟨mnemonic, expected, cause⟩
        cases cause

theorem parseRows_append_of_ok {first : List Statement} (later : List (List Lexeme))
    (one : parseRows table above = .ok first) :
    parseRows table (above ++ later) = (parseRows table later).map (first ++ ·) := by
  induction above generalizing first with
  | nil =>
    cases one
    rw [List.nil_append]
    cases parseRows table later <;> rfl
  | cons row rest ih =>
    rw [parseRows_cons] at one
    obtain ⟨part, own, one⟩ := bind_eq_ok_iff.mp one
    obtain ⟨others, behind, joined⟩ := bind_eq_ok_iff.mp one
    cases joined
    have again : parseRow table ((rest ++ later).all List.isEmpty) row = .ok part :=
      parseRow_eq_ok_iff.mpr (parseRow_eq_ok_iff.mp own)
    rw [List.cons_append, parseRows_cons, again, ih behind, ok_bind]
    cases parseRows table later with
    | error error => rfl
    | ok second => exact congrArg Except.ok (List.append_assoc _ _ _).symm

theorem parseRows_append_of_blank (above : List (List Lexeme)) (blank : ∀ row ∈ later, row = []) :
    parseRows table (above ++ later) = parseRows table above := by
  have none : later.filter (fun row => !row.isEmpty) = [] := by
    refine List.filter_eq_nil_iff.mpr fun row member => ?_
    rw [blank row member]
    decide
  rw [← parseRows_filter, List.filter_append, none, List.append_nil, parseRows_filter]

/-- Rows that are refused are refused with fields behind them, for a row of their own. -/
theorem followed_of_parseRows (some_field : ∃ row ∈ later, row ≠ [])
    (failed : parseRows table above = .error error) : ∃ row ∈ above, ∃ other,
      parseRows table (above ++ later) = .error other ∧ Followed row error other := by
  induction above with
  | nil => cases failed
  | cons row rest ih =>
    rw [parseRows_cons] at failed
    rw [List.cons_append, parseRows_cons]
    rcases bind_eq_error_iff.mp failed with failed | ⟨part, own, failed⟩
    · have more : (rest ++ later).all List.isEmpty = false := by
        obtain ⟨filled, member, nonempty⟩ := some_field
        refine List.all_eq_false.mpr ⟨filled, List.mem_append_right _ member, ?_⟩
        simpa using nonempty
      obtain ⟨other, again, followed⟩ := followed_of_parseRow failed
      refine ⟨row, List.mem_cons_self, other, ?_, followed⟩
      rw [more, again]
      rfl
    · rcases bind_eq_error_iff.mp failed with failed | ⟨others, -, impossible⟩
      · obtain ⟨found, member, other, again, followed⟩ := ih failed
        refine ⟨found, List.mem_cons_of_mem _ member, other, ?_, followed⟩
        rw [parseRow_eq_ok_iff.mpr (parseRow_eq_ok_iff.mp own), again]
        rfl
      · cases impossible

/-- A refusal that is not for the end of the input does not depend on the rows behind. -/
theorem parseRows_append_of_error (other : ¬ error.Ended)
    (failed : parseRows table above = .error error) :
    parseRows table (above ++ later) = .error error := by
  by_cases blank : ∀ row ∈ later, row = []
  · rw [parseRows_append_of_blank _ blank, failed]
  · obtain ⟨row, -, twin, again, followed⟩ := followed_of_parseRows (by simpa using blank) failed
    cases followed with
    | same => exact again
    | ended => exact absurd ⟨_, _, rfl⟩ other

/-- What reading two sources with a line feed between them comes to, by what reading each comes to.
The second part is read as on its own, below the lines of the first one. An error of the first part
is the error of the whole, unless it is the end of the input and a field follows; then the same
instruction has too few operands, those that stand in its line. -/
structure Composes (read : String → Except AssemblyError (List Statement))
    (source other : String) : Prop where
  both : ∀ first second, read source = .ok first → read other = .ok second →
    read (source ++ "\n" ++ other) =
      .ok (first ++ second.map (Statement.below (lines source.toList).length))
  second : ∀ first error, read source = .ok first → read other = .error error →
    read (source ++ "\n" ++ other) = .error (error.below (lines source.toList).length)
  first : ∀ error, read source = .error error → ¬ error.Ended →
    read (source ++ "\n" ++ other) = .error error
  blank : ∀ error, read source = .error error → error.Ended → (∀ row ∈ rows other, row = []) →
    read (source ++ "\n" ++ other) = .error error
  ended : ∀ place mnemonic expected,
    read source = .error ⟨place, .unexpectedEnd mnemonic expected⟩ →
    (∃ row ∈ rows other, row ≠ []) → ∃ line field operands,
      (line, place.line) ∈ numbered source ∧ fields place.line line = field :: operands ∧
      field.location = place ∧ operands.length < expected ∧
      read (source ++ "\n" ++ other) =
        .error ⟨place, .arityMismatch mnemonic expected operands.length⟩

/-- A row of a source is that of the line with the number that its fields have. -/
theorem exists_line_of_mem_rows {source : String} {first : Lexeme} {rest : List Lexeme}
    (member : first :: rest ∈ rows source) : ∃ line,
      (line, first.location.line) ∈ numbered source ∧
        fields first.location.line line = first :: rest := by
  obtain ⟨⟨line, number⟩, listed, own⟩ := List.mem_map.mp member
  change fields number line = first :: rest at own
  have inLine : first ∈ fields number line := by
    rw [own]
    exact List.mem_cons_self
  obtain ⟨before, after, -, place, -⟩ := exists_run_of_mem_fields inLine
  rw [place]
  exact ⟨line, listed, own⟩

theorem composes_parse (table : Table) (source other : String) :
    Composes (parse table) source other := by
  have whole := congrArg (parseRows table) (rows_append source other)
  have moved := parseRows_below (lines source.toList).length table (rows other)
  refine ⟨?_, ?_, ?_, ?_, ?_⟩
  · intro first second one two
    rw [parse] at one two
    rw [parse, whole, parseRows_append_of_ok _ one, moved, two]
    rfl
  · intro first error one two
    rw [parse] at one two
    rw [parse, whole, parseRows_append_of_ok _ one, moved, two]
    rfl
  · intro error one unended
    rw [parse, whole]
    exact parseRows_append_of_error unended one
  · intro error one _ blank
    rw [parse, whole, parseRows_append_of_blank]
    · exact one
    · intro row member
      obtain ⟨own, inSource, rfl⟩ := List.mem_map.mp member
      exact List.map_eq_nil_iff.mpr (blank own inSource)
  · intro place mnemonic expected one some_field
    obtain ⟨row, inSource, nonempty⟩ := some_field
    obtain ⟨own, member, twin, again, followed⟩ := followed_of_parseRows
      ⟨_, List.mem_map_of_mem inSource, mt List.map_eq_nil_iff.mp nonempty⟩ one
    cases followed with
    | same more => exact absurd ⟨_, _, rfl⟩ more
    | ended split few =>
      subst split
      obtain ⟨line, listed, inLine⟩ := exists_line_of_mem_rows member
      refine ⟨line, _, _, listed, inLine, rfl, few, ?_⟩
      rw [parse, whole]
      exact again

/-- Reading is compositional line by line, errors included: row by row, and from all tokens of a
source in one list. -/
theorem composes_read (table : Table) (source other : String) :
    Composes (parse table) source other ∧
      Composes (fun text => ofTokens table (tokenize table text)) source other := by
  have tokens : (fun text => ofTokens table (tokenize table text)) = parse table :=
    funext (ofTokens_tokenize table)
  rw [tokens]
  exact ⟨composes_parse table source other, composes_parse table source other⟩

/-- An instruction without an operand is refused for the end of the input, and for its operands when
a label follows. -/
example : parse Table.standard "add r1" = .error ⟨⟨1, 0⟩, .unexpectedEnd "ADD" 2⟩ ∧
    parse Table.standard ("add r1" ++ "\n" ++ ".end") =
      .error ⟨⟨1, 0⟩, .arityMismatch "ADD" 2 1⟩ := ⟨rfl, rfl⟩

end Statement

end Tetrad
