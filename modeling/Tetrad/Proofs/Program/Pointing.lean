import Tetrad.Proofs.Operand.Printing
import Tetrad.Proofs.Program.Grammar
import Tetrad.Proofs.Program.Refusal

/-!
# Where errors point

An error of a source stands where a field starts, and speaks of that field
(`AssemblyError.PointsAt`). Statements keep the places of the fields they are read from, and stand
in the order of their places, so a label that is declared twice is refused the second time.
-/

namespace Tetrad

open Source

/-- The first place stands before the second. -/
def Location.Before (a b : Location) : Prop :=
  a.line < b.line ∨ a.line = b.line ∧ a.column < b.column

namespace Source

variable {source : String} {row : List Lexeme} {field : Lexeme}

/-- A text is a field at this place: a longest run without separators starts there, in front of the
comment of its line. -/
def FieldAt (source : String) (place : Location) (text : List Char) : Prop :=
  ∃ index line before after, (lines source.toList)[index]? = some line ∧
    (splitComment line).1 = before ++ text ++ after ∧ IsRun before text after ∧
      place = ⟨index + 1, byteLength before⟩

/-- The field stands in a line of labels. -/
def LabelField (source : String) (field : Lexeme) : Prop :=
  ∃ first rest, first :: rest ∈ rows source ∧ first.text.toList.head? = some '.' ∧
    field ∈ first :: rest

theorem fieldAt_of_mem_rows (inSource : row ∈ rows source) (member : field ∈ row) :
    FieldAt source field.location field.text.toList := by
  obtain ⟨⟨line, number⟩, listed, rfl⟩ := List.mem_map.mp inSource
  obtain ⟨index, found, rfl⟩ := mem_numbered.mp listed
  obtain ⟨before, after, whole, place, run⟩ := exists_run_of_mem_fields member
  exact ⟨index, line, before, after, found, whole, run, place⟩

theorem LabelField.fieldAt (own : LabelField source field) :
    FieldAt source field.location field.text.toList := by
  obtain ⟨first, rest, inSource, -, member⟩ := own
  exact fieldAt_of_mem_rows inSource member

theorem ordered_rows (source : String) :
    ((rows source).flatten.map Lexeme.location).Pairwise Location.Before := by
  -- They are the places of the tokens of fields, whatever mnemonics there are.
  have table : Table := ⟨[]⟩
  have same : (rows source).flatten.map Lexeme.location =
      ((tokenize table source).filter (·.kind.isSignificant)).map Token.location := by
    rw [Token.filter_tokenize, List.map_flatMap, List.map_flatten, ← List.flatMap_def]
    refine List.flatMap_congr fun row _ => ?_
    cases row with
    | nil => rfl
    | cons first rest => simp [Token.ofRow, Token.location_ofField, Token.value]
  rw [same, List.pairwise_map]
  refine ((Token.ordered_tokenize table source).filter _).imp ?_
  rintro a b (lines | ⟨line, columns, -⟩)
  · exact .inl lines
  · exact .inr ⟨line, columns⟩

end Source

/-- The cause speaks of a field with this text. Mnemonics are spelled as in the table. -/
def AssemblyCause.SpeaksOf (table : Table) (text : String) : AssemblyCause → Prop
  | .unexpectedEnd mnemonic _ => sameLetters mnemonic text = true
  | .invalidOperand token => text = token
  | .unexpectedIdentifier token => text = token
  | .arityMismatch mnemonic _ _ => sameLetters mnemonic text = true
  | .invalidMode _ token _ _ => text = token
  | .inconsistentModes _ token _ _ => text = token
  | .duplicateLabel label => text = "." ++ label
  | .undefinedLabel label => text = "." ++ label ∨ text = "(." ++ label ++ ")"
  | .instructionOverflow mnemonic _ => sameLetters mnemonic text = true
  | .registerOutOfRange token => text = token
  | .programTooLarge token =>
    text = token ∨ (∃ form ∈ table.forms, form.mnemonic = token) ∧ sameLetters token text = true
  | .unencodable _ _ => False

/-- An error of a source stands at one of its fields and speaks of it. A label that is called
undefined is declared nowhere, and one that is called a duplicate is declared above as well. -/
structure AssemblyError.PointsAt (table : Table) (source : String) (error : AssemblyError)
    (field : Lexeme) : Prop where
  located : error.location? = some field.location
  standing : FieldAt source field.location field.text.toList
  spoken : error.cause.SpeaksOf table field.text
  undeclared : ∀ label, error.cause = .undefinedLabel label → ∃ statements,
    Statement.parse table source = .ok statements ∧ label ∉ Statement.names statements
  repeated : ∀ label, error.cause = .duplicateLabel label → ∃ earlier,
    LabelField source earlier ∧ earlier.text = "." ++ label ∧
      earlier.location.Before field.location

variable {table : Table} {source : String} {error : AssemblyError} {field : Lexeme}
  {statements : List Statement}

/-- A cause that speaks of a field is no internal one, and so its place is reported. -/
theorem location?_of_speaksOf (here : error.location = field.location)
    (spoken : error.cause.SpeaksOf table field.text) : error.location? = some field.location := by
  unfold AssemblyError.location?
  split
  · next internal =>
    rw [internal] at spoken
    cases spoken
  · rw [here]

theorem speaksOf_of_refused {cause : AssemblyCause} (refused : field.Refused cause) :
    cause.SpeaksOf table field.text := by
  cases refused with
  | ended letters | arity letters => exact letters
  | _ => rfl

theorem pointsAt_of_refusedIn {row : List Lexeme} (inSource : row ∈ rows source)
    (refused : RefusedIn row error) : ∃ field, error.PointsAt table source field := by
  obtain ⟨field, member, here, refused⟩ := refused
  have spoken : error.cause.SpeaksOf table field.text := speaksOf_of_refused refused
  refine ⟨field, location?_of_speaksOf here spoken, fieldAt_of_mem_rows inSource member, spoken,
    ?_, ?_⟩
  · intro label cause
    rw [cause] at refused
    cases refused
  · intro label cause
    rw [cause] at refused
    cases refused

namespace Statement

/-- The place of a statement: that of its label or of its mnemonic. -/
def location : Statement → Location
  | declaration label => label.location
  | instruction line => line.location

theorem locations_of_declares {fields : List Lexeme}
    (each : List.Forall₂ Declares fields statements) :
    statements.map location = fields.map Lexeme.location := by
  induction each with
  | nil => rfl
  | cons first _ ih =>
    cases first with
    | name text valid => simp [ih, location]

theorem locations_of_lineSays {row : List Lexeme} {part : List Statement}
    (own : LineSays table row part) :
    (part.map location).Sublist (row.map Lexeme.location) := by
  cases own with
  | blank => exact .slnil
  | labels dotted each => rw [locations_of_declares each]
  | instruction plain found each accepts => simp [location]

theorem ordered_of_parse (parsed : parse table source = .ok statements) :
    statements.Pairwise fun a b => a.location.Before b.location := by
  obtain ⟨parts, read, rfl⟩ := parse_eq_ok_iff_lineSays.mp parsed
  have places : (parts.flatten.map location).Sublist
      ((rows source).flatten.map Lexeme.location) := by
    clear parsed
    generalize rows source = given at read
    induction read with
    | nil => exact .slnil
    | cons first _ ih =>
      simp only [List.flatten_cons, List.map_append]
      exact (locations_of_lineSays first).append ih
  exact List.pairwise_map.mp ((ordered_rows source).sublist places)

/-- A label that is read is declared by a field. -/
theorem exists_field_of_declaration {label : Declaration}
    (parsed : parse table source = .ok statements) (member : declaration label ∈ statements) :
    ∃ field, LabelField source field ∧ field.text = "." ++ label.name ∧
      label.location = field.location := by
  obtain ⟨parts, read, rfl⟩ := parse_eq_ok_iff_lineSays.mp parsed
  obtain ⟨part, inParts, inPart⟩ := List.mem_flatten.mp member
  obtain ⟨row, inSource, own⟩ := exists_of_mem_forall₂ read inParts
  cases own with
  | blank => cases inPart
  | @labels first rest _ dotted each =>
    obtain ⟨field, inRow, own⟩ := exists_of_mem_forall₂ each inPart
    cases own with
    | name text valid => exact ⟨field, ⟨first, rest, inSource, dotted, inRow⟩, text, rfl⟩
  | instruction plain found each accepts => simp at inPart

/-- An instruction that is read has the place of its mnemonic, and each operand that of a field. -/
theorem exists_row_of_instruction {line : InstructionLine}
    (parsed : parse table source = .ok statements) (member : instruction line ∈ statements) :
    ∃ first rest, first :: rest ∈ rows source ∧ table.lookup? first.text = some line.form ∧
      line.location = first.location ∧ List.Forall₂ Writes rest line.arguments := by
  obtain ⟨parts, read, rfl⟩ := parse_eq_ok_iff_lineSays.mp parsed
  obtain ⟨part, inParts, inPart⟩ := List.mem_flatten.mp member
  obtain ⟨row, inSource, own⟩ := exists_of_mem_forall₂ read inParts
  cases own with
  | blank => cases inPart
  | labels dotted each =>
    obtain ⟨field, -, own⟩ := exists_of_mem_forall₂ each inPart
    cases own
  | instruction plain found each accepts =>
    cases List.mem_singleton.mp inPart
    exact ⟨_, _, inSource, found, rfl, each⟩

/-- Statements that are refused are refused at a field of their source. -/
theorem pointsAt_of_refused (parsed : parse table source = .ok statements)
    (refused : Refused statements error) : ∃ field, error.PointsAt table source field := by
  cases refused with
  | @outside label member =>
    obtain ⟨field, own, text, here⟩ := exists_field_of_declaration parsed member
    exact ⟨field, congrArg some here, own.fieldAt, .inl text, nofun, nofun⟩
  | @repeated label before after split known =>
    have member : declaration label ∈ statements := by simp [split]
    obtain ⟨field, own, text, here⟩ := exists_field_of_declaration parsed member
    obtain ⟨statement, above, named⟩ := List.mem_filterMap.mp known
    cases statement with
    | instruction line => cases named
    | declaration other =>
      have listed : declaration other ∈ statements := by simp [split, above]
      obtain ⟨earlier, ownFirst, textFirst, hereFirst⟩ := exists_field_of_declaration parsed listed
      -- The label is declared above, and what stands above was read from an earlier field.
      have ordered := ordered_of_parse parsed
      rw [split] at ordered
      have before := (List.pairwise_append.mp ordered).2.2 _ above _ List.mem_cons_self
      refine ⟨field, congrArg some here, own.fieldAt, text, nofun, ?_⟩
      intro name same
      cases same
      refine ⟨earlier, ownFirst, ?_, ?_⟩
      · rw [textFirst, Option.some.inj named]
      · rw [← hereFirst, ← here]
        exact before
  | @wide line member =>
    obtain ⟨first, rest, inSource, found, here, -⟩ := exists_row_of_instruction parsed member
    obtain ⟨-, letters⟩ := Table.mem_of_lookup? found
    exact ⟨first, congrArg some here, fieldAt_of_mem_rows inSource List.mem_cons_self, letters,
      nofun, nofun⟩
  | @beyond line member =>
    obtain ⟨first, rest, inSource, found, here, -⟩ := exists_row_of_instruction parsed member
    obtain ⟨listed, letters⟩ := Table.mem_of_lookup? found
    exact ⟨first, congrArg some here, fieldAt_of_mem_rows inSource List.mem_cons_self,
      .inr ⟨⟨_, listed, rfl⟩, letters⟩, nofun, nofun⟩
  | @undefined line argument name member inLine refers absent =>
    obtain ⟨first, rest, inSource, -, -, each⟩ := exists_row_of_instruction parsed member
    obtain ⟨field, inRow, own⟩ := exists_of_mem_forall₂ each inLine
    cases own with
    | operand resolved =>
      obtain ⟨-, text⟩ := Operand.text_of_resolve resolved refers
      refine ⟨field, rfl, fieldAt_of_mem_rows inSource (List.mem_cons_of_mem _ inRow), text, ?_,
        nofun⟩
      intro label same
      cases same
      exact ⟨statements, parsed, absent⟩

end Statement

/-- Every error of assembling a source stands at a field of the source and speaks of it. -/
theorem Program.exists_pointsAt {base : UInt16}
    (failed : assemble table base source = .error error) :
    ∃ field, error.PointsAt table source field := by
  rcases bind_eq_error_iff.mp failed with unread | ⟨statements, parsed, failed⟩
  · obtain ⟨row, inSource, refused⟩ := Statement.refusedIn_of_parse unread
    exact pointsAt_of_refusedIn inSource refused
  · rcases bind_eq_error_iff.mp failed with failed | ⟨labels, -, impossible⟩
    · exact Statement.pointsAt_of_refused parsed (Statement.refused_of_build failed)
    · cases impossible

/-- A jump behind a blank of two bytes, and below a comment that is not read. -/
theorem Program.exists_pointsAt_undefined :
    assemble Table.standard 0x200 "HLT // .end\n\u00a0jmp .end" =
        .error ⟨⟨2, 6⟩, .undefinedLabel "end"⟩ ∧
      ∃ field, AssemblyError.PointsAt Table.standard "HLT // .end\n\u00a0jmp .end"
        ⟨⟨2, 6⟩, .undefinedLabel "end"⟩ field :=
  ⟨rfl, @exists_pointsAt _ _ _ 0x200 rfl⟩

end Tetrad
