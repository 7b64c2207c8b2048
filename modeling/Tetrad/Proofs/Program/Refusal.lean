import Tetrad.Proofs.Program.Layout
import Tetrad.Proofs.Program.Parsing

/-!
# Refusals

A source that is no program is refused for what it says: a field that cannot be read
(`Lexeme.Refused`), or a statement that cannot be placed (`Statement.Refused`). An internal error
would say that every check passed and yet an instruction has no word, and none is reported here.
-/

namespace Tetrad

open Source

/-- An instruction that passed every check has no word. -/
def AssemblyError.Internal (error : AssemblyError) : Prop :=
  ∃ mnemonic reason, error.cause = .unencodable mnemonic reason

variable {error : AssemblyError}

/-- Why a field is refused: it is itself no label, mnemonic or operand, or it is a mnemonic with too
few or too many operands. -/
inductive Source.Lexeme.Refused (field : Lexeme) : AssemblyCause → Prop
  | identifier : Refused field (.unexpectedIdentifier field.text)
  | operand : Refused field (.invalidOperand field.text)
  | register : Refused field (.registerOutOfRange field.text)
  | mode {mnemonic : String} {position : Nat} {mode : Mode} :
    Refused field (.invalidMode mnemonic field.text position mode)
  | modes {mnemonic : String} {expected found : Mode} :
    Refused field (.inconsistentModes mnemonic field.text expected found)
  | ended {mnemonic : String} {expected : Nat}
      (letters : sameLetters mnemonic field.text = true) :
    Refused field (.unexpectedEnd mnemonic expected)
  | arity {mnemonic : String} {expected found : Nat}
      (letters : sameLetters mnemonic field.text = true) :
    Refused field (.arityMismatch mnemonic expected found)

/-- The error stands at a field of the row and says why that field is refused. -/
def Source.RefusedIn (row : List Lexeme) (error : AssemblyError) : Prop :=
  ∃ field ∈ row, error.location = field.location ∧ field.Refused error.cause

theorem refusedIn_of_declaration {row : List Lexeme} {field : Lexeme} (member : field ∈ row)
    (failed : Declaration.parse field = .error error) : RefusedIn row error := by
  unfold Declaration.parse at failed
  split at failed
  · cases failed
  · cases failed
    exact ⟨field, member, rfl, .identifier⟩

theorem refusedIn_of_argument {row : List Lexeme} {field : Lexeme} (member : field ∈ row)
    (failed : Argument.parse field = .error error) : RefusedIn row error := by
  unfold Argument.parse at failed
  split at failed
  · cases failed
  · cases failed
    exact ⟨field, member, rfl, .register⟩
  · cases failed
    exact ⟨field, member, rfl, .operand⟩

namespace InstructionLine

variable {form : Form} {arguments : List Argument}

theorem exists_of_misplaced? (found : misplaced? form arguments = some error) :
    ∃ argument ∈ arguments, ∃ position mode, error =
      ⟨argument.location, .invalidMode form.mnemonic argument.text position mode⟩ := by
  obtain ⟨⟨⟨set, argument⟩, position⟩, listed, rfl⟩ := Option.map_eq_some_iff.mp found
  have member := List.fst_mem_of_mem_zipIdx (List.mem_of_find?_eq_some listed)
  exact ⟨argument, (List.of_mem_zip member).2, _, _, rfl⟩

theorem exists_of_inconsistent? (found : inconsistent? form arguments = some error) :
    ∃ argument ∈ arguments, ∃ expected mode, error =
      ⟨argument.location, .inconsistentModes form.mnemonic argument.text expected mode⟩ := by
  unfold inconsistent? at found
  split at found
  · cases found
  · next first others free =>
    obtain ⟨other, listed, rfl⟩ := Option.map_eq_some_iff.mp found
    have member : other ∈ form.atFree arguments := by
      rw [free]
      exact List.mem_cons_of_mem _ (List.mem_of_find?_eq_some listed)
    obtain ⟨set, inZip, -⟩ := Form.mem_atFree.mp member
    exact ⟨other, (List.of_mem_zip inZip).2, _, _, rfl⟩

theorem refusedIn_of_parse {first : Lexeme} {operands : List Lexeme} {last : Bool}
    (letters : sameLetters form.mnemonic first.text = true)
    (failed : parse form first.location operands last = .error error) :
    RefusedIn (first :: operands) error := by
  rw [parse_eq] at failed
  split at failed
  · cases failed
    exact ⟨first, List.mem_cons_self, rfl, .ended letters⟩
  · split at failed
    · cases failed
      exact ⟨first, List.mem_cons_self, rfl, .arity letters⟩
    · rcases bind_eq_error_iff.mp failed with unread | ⟨arguments, read, refused⟩
      · obtain ⟨field, member, unread⟩ := exists_of_mapM_eq_error unread
        exact refusedIn_of_argument (List.mem_cons_of_mem _ member) unread
      · -- An argument has the text and the place of its field.
        have written : ∀ argument ∈ arguments, ∃ field ∈ operands,
            argument.text = field.text ∧ argument.location = field.location := by
          intro argument member
          obtain ⟨field, inRow, own⟩ :=
            exists_of_mem_forall₂ (mapM_eq_ok_iff_forall₂.mp read) member
          obtain ⟨text, location, -⟩ := Argument.parse_eq_ok_iff.mp own
          exact ⟨field, inRow, text, location⟩
        split at refused
        · next found =>
          cases refused
          obtain ⟨argument, member, position, mode, rfl⟩ := exists_of_misplaced? found
          obtain ⟨field, inRow, text, location⟩ := written argument member
          rw [text]
          exact ⟨field, List.mem_cons_of_mem _ inRow, location, .mode⟩
        · next found =>
          cases refused
          obtain ⟨argument, member, expected, mode, rfl⟩ := exists_of_inconsistent? found
          obtain ⟨field, inRow, text, location⟩ := written argument member
          rw [text]
          exact ⟨field, List.mem_cons_of_mem _ inRow, location, .modes⟩
        · cases refused

end InstructionLine

namespace Statement

variable {table : Table} {statements : List Statement}

theorem refusedIn_of_parseRow {last : Bool} {row : List Lexeme}
    (failed : parseRow table last row = .error error) : RefusedIn row error := by
  cases row with
  | nil => cases failed
  | cons first rest =>
    rw [parseRow] at failed
    split at failed
    · obtain ⟨field, member, failed⟩ := exists_of_mapM_eq_error failed
      exact refusedIn_of_declaration member (map_eq_error_iff.mp failed)
    · split at failed
      · next form found =>
        obtain ⟨-, letters⟩ := Table.mem_of_lookup? found
        rcases bind_eq_error_iff.mp failed with failed | ⟨line, -, impossible⟩
        · exact InstructionLine.refusedIn_of_parse letters failed
        · cases impossible
      · cases failed
        exact ⟨first, List.mem_cons_self, rfl, .identifier⟩

/-- A source that cannot be read is refused at a field of one of its rows. -/
theorem refusedIn_of_parse {source : String} (failed : parse table source = .error error) :
    ∃ row ∈ rows source, RefusedIn row error := by
  rcases bind_eq_error_iff.mp failed with failed | ⟨parts, -, impossible⟩
  · obtain ⟨⟨row, last⟩, member, failed⟩ := exists_of_mapM_eq_error failed
    refine ⟨row, ?_, refusedIn_of_parseRow failed⟩
    rw [← map_fst_markLast (rows source)]
    exact List.mem_map_of_mem member
  · cases impossible

/-- Why statements are refused: a label or an instruction has no room, an instruction is too wide
for a word, a label is declared above already, or an operand refers to one that is not declared. -/
inductive Refused (statements : List Statement) : AssemblyError → Prop
  | outside {label : Declaration} (member : declaration label ∈ statements) :
    Refused statements ⟨label.location, .programTooLarge ("." ++ label.name)⟩
  | repeated {label : Declaration} {before after : List Statement}
      (split : statements = before ++ declaration label :: after)
      (known : label.name ∈ names before) :
    Refused statements ⟨label.location, .duplicateLabel label.name⟩
  | wide {line : InstructionLine} (member : instruction line ∈ statements) :
    Refused statements ⟨line.location, .instructionOverflow line.form.mnemonic line.layoutBits⟩
  | beyond {line : InstructionLine} (member : instruction line ∈ statements) :
    Refused statements ⟨line.location, .programTooLarge line.form.mnemonic⟩
  | undefined {line : InstructionLine} {argument : Argument} {name : String}
      (member : instruction line ∈ statements) (inLine : argument ∈ line.arguments)
      (refers : argument.operand.label? = some name) (absent : name ∉ names statements) :
    Refused statements ⟨argument.location, .undefinedLabel name⟩

theorem refused_of_place {earlier : List Statement} {address : Nat}
    {known : List (String × UInt16)} (all : ∀ name ∈ known.map Prod.fst, name ∈ names earlier)
    (failed : Labels.place address known statements = .error error) :
    Refused (earlier ++ statements) error := by
  -- What is known was declared among the statements that are placed already.
  induction statements generalizing address known earlier with
  | nil => cases failed
  | cons statement rest ih =>
    rw [List.append_cons]
    cases statement with
    | declaration label =>
      rw [Labels.place] at failed
      split at failed
      · cases failed
        exact .outside (by simp)
      · split at failed
        · next known =>
          cases failed
          have listed : label.name ∈ _ := not_not.mp
            (mt lookup_eq_none_iff_not_mem.mpr (Option.isSome_iff_ne_none.mp known))
          exact .repeated (List.append_assoc _ _ _) (all _ listed)
        · refine ih ?_ failed
          intro name member
          rcases List.mem_cons.mp member with rfl | member
          · simp [names, declared?]
          · have above := all name member
            simp [names] at above ⊢
            exact .inl above
    | instruction line =>
      rw [Labels.place] at failed
      split at failed
      · cases failed
        exact .wide (by simp)
      · split at failed
        · cases failed
          exact .beyond (by simp)
        · refine ih ?_ failed
          intro name member
          simpa [names, declared?] using all name member

/-- Statements are refused for what they say. -/
theorem refused_of_build {base : UInt16} (failed : Labels.build statements base = .error error) :
    Refused statements error := by
  rcases bind_eq_error_iff.mp failed with failed | ⟨places, placed, failed⟩
  · have refused : Refused ([] ++ statements) error := refused_of_place (by simp) failed
    exact refused
  · obtain ⟨-, table⟩ := Labels.place_base_eq_ok_iff.mp placed
    dsimp only at failed
    split at failed
    · next found =>
      cases failed
      rw [table] at found
      obtain ⟨argument, listed, own⟩ := List.exists_of_findSome?_eq_some found
      obtain ⟨line, member, inLine⟩ := List.mem_flatMap.mp listed
      split at own
      · cases own
      · next name refers =>
        split at own
        · cases own
        · next unknown =>
          cases own
          have absent := Labels.address?_ofPositions_eq_none_iff.mp (by simpa using unknown)
          exact .undefined (Labels.mem_instructions_iff.mp member) inLine refers absent
    · cases failed

end Statement

theorem Statement.not_internal_of_parse {table : Table} {source : String}
    (failed : parse table source = .error error) : ¬ error.Internal := by
  obtain ⟨row, -, field, -, -, refused⟩ := refusedIn_of_parse failed
  rintro ⟨mnemonic, reason, cause⟩
  rw [cause] at refused
  cases refused

theorem Labels.not_internal_of_build {statements : List Statement} {base : UInt16}
    (failed : build statements base = .error error) : ¬ error.Internal := by
  rintro ⟨mnemonic, reason, cause⟩
  cases Statement.refused_of_build failed <;> cases cause

end Tetrad
