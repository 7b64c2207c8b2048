import Tetrad.Program.Scan
import Tetrad.Proofs.Operand.Reading
import Tetrad.Proofs.Program.Parsing
import Tetrad.Proofs.Source.Tokens

/-!
# The grammar of a line

A source is parsed when each of its lines is blank, a line of labels, or an instruction of the table
with operands that its form accepts (`Statement.LineSays`). Reading all tokens of the source in one
list comes to the same statements or the same error, since an instruction takes no operand from
another line (`Statement.ofTokens_tokenize`).
-/

namespace Tetrad

open Source

namespace Token

variable {table : Table} {number : Nat} {row : List Lexeme}

def value (field : Lexeme) : Token := ⟨.value, field.text, field.location⟩

/-- The tokens of the fields of a line. -/
def ofRow (table : Table) : List Lexeme → List Token
  | [] => []
  | first :: rest => ofField table true first.location first.text.toList :: rest.map value

theorem location_of_mem_ofRow {token : Token} (member : token ∈ ofRow table row) :
    ∃ field ∈ row, token.location = field.location := by
  cases row with
  | nil => cases member
  | cons first rest =>
    rcases List.mem_cons.mp member with rfl | member
    · exact ⟨first, List.mem_cons_self, location_ofField⟩
    · obtain ⟨field, inRest, rfl⟩ := List.mem_map.mp member
      exact ⟨field, List.mem_cons_of_mem _ inRest, rfl⟩

theorem isEmpty_flatMap_ofRow (table : Table) (rows : List (List Lexeme)) :
    (rows.flatMap (ofRow table)).isEmpty = rows.all List.isEmpty := by
  induction rows with
  | nil => rfl
  | cons row rest ih =>
    cases row with
    | nil => exact ih
    | cons first fields => rfl

theorem filter_ofPieces_false (table : Table) (number : Nat) (found : List Piece) :
    (ofPieces table number false found).filter (·.kind.isSignificant) =
      (found.filterMap (Piece.lexeme? number)).map value := by
  induction found with
  | nil => rfl
  | cons piece rest ih =>
    cases piece with
    | comma column => exact ih
    | field column text => exact congrArg (value ⟨String.ofList text, ⟨number, column⟩⟩ :: ·) ih

theorem filter_ofPieces_true (table : Table) (number : Nat) (found : List Piece) :
    (ofPieces table number true found).filter (·.kind.isSignificant) =
      ofRow table (found.filterMap (Piece.lexeme? number)) := by
  induction found with
  | nil => rfl
  | cons piece rest ih =>
    cases piece with
    | comma column => exact ih
    | field column text =>
      have first := isSignificant_ofField table true ⟨number, column⟩ text
      rw [ofPieces, List.filter_cons, if_pos first, filter_ofPieces_false]
      simp [Piece.lexeme?, ofRow]

theorem filter_ofLine (table : Table) (number : Nat) (ended : Bool) (line : List Char) :
    (ofLine table number ended line).filter (·.kind.isSignificant) =
      ofRow table (fields number line) := by
  have layout : ∀ token ∈ (ofComment? number line).toList ++
      (if ended then [lineEnd number line] else []), ¬ token.kind.isSignificant = true := by
    intro token member
    rcases List.mem_append.mp member with inComment | last
    · obtain ⟨body, -, rfl⟩ := Option.map_eq_some_iff.mp (Option.mem_toList.mp inComment)
      simp [TokenKind.isSignificant]
    · split at last
      · simp [List.mem_singleton.mp last, lineEnd, TokenKind.isSignificant]
      · cases last
  rw [ofLine_eq, within, List.append_assoc, List.filter_append, filter_ofPieces_true,
    List.filter_eq_nil_iff.mpr layout, List.append_nil]
  rfl

theorem filter_tokenize (table : Table) (source : String) :
    (tokenize table source).filter (·.kind.isSignificant) =
      (rows source).flatMap (ofRow table) := by
  unfold tokenize rows
  dsimp only
  rw [List.filter_flatMap, List.flatMap_map]
  exact List.flatMap_congr fun entry _ => filter_ofLine table entry.2 _ entry.1

end Token

namespace Statement

variable {table : Table} {number : Nat} {row : List Lexeme} {later : List Token}

theorem markLast_cons (row : List Lexeme) (rows : List (List Lexeme)) :
    markLast (row :: rows) = (row, rows.all List.isEmpty) :: markLast rows := by
  let mark (row : List Lexeme) (found : List (List Lexeme × Bool) × Bool) :=
    ((row, found.2) :: found.1, found.2 && row.isEmpty)
  have last : (rows.foldr mark ([], true)).2 = rows.all List.isEmpty := by
    induction rows with
    | nil => rfl
    | cons first rest ih => rw [List.foldr_cons, List.all_cons, Bool.and_comm, ← ih]
  rw [← last]
  rfl

theorem parseRows_cons (table : Table) (row : List Lexeme) (rows : List (List Lexeme)) :
    parseRows table (row :: rows) = do
      let part ← parseRow table (rows.all List.isEmpty) row
      let others ← parseRows table rows
      return part ++ others := by
  simp [parseRows, markLast_cons, List.mapM_cons]

theorem scan_cons_of_ne {token : Token} (significant : token.kind.isSignificant = true)
    (other : token.kind ≠ .instruction) (rest : List Token) : scan table (token :: rest) = do
      let label ← Declaration.parse token.lexeme
      let others ← scan table rest
      return declaration label :: others := by
  rw [scan]
  split
  · next kind => exact absurd kind other
  · rfl
  · rfl
  · next kind => simp [kind, TokenKind.isSignificant] at significant
  · next kind => simp [kind, TokenKind.isSignificant] at significant
  · next kind => simp [kind, TokenKind.isSignificant] at significant

theorem scan_values (table : Table) (fields : List Lexeme) (later : List Token) :
    scan table (fields.map Token.value ++ later) = do
      let part ← fields.mapM fun field => (Declaration.parse field).map declaration
      let others ← scan table later
      return part ++ others := by
  induction fields with
  | nil => simp
  | cons field rest ih =>
    have same : (Token.value field).lexeme = field := rfl
    rw [List.map_cons, List.cons_append, scan_cons_of_ne rfl (by simp [Token.value]), same, ih,
      List.mapM_cons]
    cases Declaration.parse field with
    | error error => rfl
    | ok label => simp [Except.map, ok_bind]

theorem declaration_parse_of_plain {field : Lexeme}
    (plain : field.text.toList.head? ≠ some '.') :
    Declaration.parse field = .error ⟨field.location, .unexpectedIdentifier field.text⟩ := by
  have undotted : after? '.' field.text.toList = none := by
    simpa using mt isSome_after?_iff.mp plain
  simp [Declaration.parse, readLabel?, undotted]

/-- An instruction takes the values of its row, and no value of another line. -/
theorem scan_instruction {first : Lexeme} {rest : List Lexeme} {form : Form}
    (found : table.lookup? first.text = some form)
    (onLine : ∀ field ∈ rest, field.location.line = first.location.line)
    (below : ∀ token ∈ later, token.location.line ≠ first.location.line) :
    scan table (⟨.instruction, first.text, first.location⟩ :: (rest.map Token.value ++ later)) = do
      let line ← InstructionLine.parse form first.location rest later.isEmpty
      let others ← scan table later
      return instruction line :: others := by
  have own : ∀ token ∈ rest.map Token.value,
      Token.takes ⟨.instruction, first.text, first.location⟩ token = true := by
    intro token member
    obtain ⟨field, inRest, rfl⟩ := List.mem_map.mp member
    simp [Token.takes, Token.value, onLine field inRest]
  have foreign : ∀ token ∈ later,
      Token.takes ⟨.instruction, first.text, first.location⟩ token = false := by
    intro token member
    simp [Token.takes, below token member]
  have taken : later.takeWhile (Token.takes ⟨.instruction, first.text, first.location⟩) = [] := by
    cases later with
    | nil => rfl
    | cons token others => simp [foreign]
  have left : later.dropWhile (Token.takes ⟨.instruction, first.text, first.location⟩) = later := by
    cases later with
    | nil => rfl
    | cons token others => simp [foreign]
  have fields : (rest.map Token.value).map Token.lexeme = rest := by
    simp [Token.value, Token.lexeme, Function.comp_def]
  rw [scan]
  simp only [found, List.takeWhile_append_of_pos own, List.dropWhile_append_of_pos own, taken, left,
    List.append_nil, fields]

theorem ofField_of_dotted (table : Table) {field : Lexeme}
    (dotted : field.text.toList.head? = some '.') :
    (Token.ofField table true field.location field.text.toList).kind = .label ∧
      (Token.ofField table true field.location field.text.toList).lexeme = field := by
  obtain ⟨name, split⟩ := List.head?_eq_some_iff.mp dotted
  obtain ⟨text, location⟩ := field
  have whole : "." ++ String.ofList name = text := by
    rw [← String.toList_inj, split]
    simp
  rw [split]
  simp [Token.ofField, Token.lexeme, whole]

theorem ofField_of_plain {field : Lexeme} (plain : field.text.toList.head? ≠ some '.') :
    Token.ofField table true field.location field.text.toList =
      ⟨if (table.lookup? field.text).isSome then .instruction else .value, field.text,
        field.location⟩ := by
  unfold Token.ofField
  split
  · next dotted => simp [dotted] at plain
  · simp
  · next impossible => cases impossible

/-- A row of tokens is read as a row of fields, when no token behind it stands on its line. -/
theorem scan_ofRow (onLine : ∀ field ∈ row, field.location.line = number)
    (below : ∀ token ∈ later, token.location.line ≠ number) :
    scan table (Token.ofRow table row ++ later) = do
      let part ← parseRow table later.isEmpty row
      let others ← scan table later
      return part ++ others := by
  cases row with
  | nil => simp [Token.ofRow, parseRow, ok_bind]
  | cons first rest =>
    obtain ⟨rfl, onLine⟩ := List.forall_mem_cons.mp onLine
    rw [Token.ofRow, List.cons_append, parseRow]
    by_cases dotted : first.text.toList.head? = some '.'
    · obtain ⟨kind, own⟩ := ofField_of_dotted table dotted
      have significant := Token.isSignificant_ofField table true first.location
        first.text.toList
      rw [if_pos (isSome_after?_iff.mpr dotted), scan_cons_of_ne significant (by simp [kind]), own,
        scan_values, List.mapM_cons]
      cases Declaration.parse first with
      | error error => rfl
      | ok label => simp [Except.map, ok_bind]
    · rw [if_neg (mt isSome_after?_iff.mp dotted), ofField_of_plain dotted]
      cases found : table.lookup? first.text with
      | none =>
        rw [scan_cons_of_ne (by simp [TokenKind.isSignificant]) (by simp)]
        show Declaration.parse first >>= _ = _
        rw [declaration_parse_of_plain dotted]
        rfl
      | some form =>
        rw [Option.isSome_some, if_pos rfl, scan_instruction found onLine below]
        simp

theorem scan_flatMap {entries : List (Nat × List Lexeme)}
    (apart : entries.Pairwise fun a b => a.1 < b.1)
    (placed : ∀ entry ∈ entries, ∀ field ∈ entry.2, field.location.line = entry.1) :
    scan table ((entries.map Prod.snd).flatMap (Token.ofRow table)) =
      parseRows table (entries.map Prod.snd) := by
  induction entries with
  | nil =>
    rw [List.map_nil, List.flatMap_nil, scan]
    rfl
  | cons entry others ih =>
    obtain ⟨before, apart⟩ := List.pairwise_cons.mp apart
    obtain ⟨here, placed⟩ := List.forall_mem_cons.mp placed
    -- So the look-ahead of the first row stops at its end.
    have below : ∀ token ∈ (others.map Prod.snd).flatMap (Token.ofRow table),
        token.location.line ≠ entry.1 := by
      intro token member
      rw [List.flatMap_map] at member
      obtain ⟨other, later, inRow⟩ := List.mem_flatMap.mp member
      obtain ⟨field, inFields, same⟩ := Token.location_of_mem_ofRow inRow
      rw [same, placed other later field inFields]
      exact Nat.ne_of_gt (before other later)
    rw [List.map_cons, List.flatMap_cons, scan_ofRow here below, Token.isEmpty_flatMap_ofRow,
      ih apart placed, parseRows_cons]

/-- Reading the tokens of a source in one list, and reading its lines one by one, come to the same
statements or the same error. -/
theorem ofTokens_tokenize (table : Table) (source : String) :
    ofTokens table (tokenize table source) = parse table source := by
  let entries := (numbered source).map fun entry => (entry.2, fields entry.2 entry.1)
  have apart : entries.Pairwise fun a b => a.1 < b.1 :=
    List.pairwise_map.mpr (numbered_ordered source)
  have placed : ∀ entry ∈ entries, ∀ field ∈ entry.2, field.location.line = entry.1 := by
    intro entry member field inRow
    obtain ⟨⟨line, number⟩, -, rfl⟩ := List.mem_map.mp member
    obtain ⟨before, after, -, here, -⟩ := exists_run_of_mem_fields inRow
    rw [here]
  have own : rows source = entries.map Prod.snd := by
    rw [List.map_map]
    rfl
  rw [ofTokens, Token.filter_tokenize, parse, own, scan_flatMap apart placed]

end Statement

namespace Statement

/-- The field is a dot and a name, and the statement declares that name at its place. -/
inductive Declares : Lexeme → Statement → Prop
  | name {field : Lexeme} {name : String} (text : field.text = "." ++ name)
      (valid : isLabelName name.toList = true) :
      Declares field (declaration ⟨name, field.location⟩)

inductive Writes : Lexeme → Argument → Prop
  | operand {field : Lexeme} {operand : Operand}
      (resolved : Operand.resolve field.text = .ok operand) :
      Writes field ⟨operand, field.text, field.location⟩

/-- A line with these fields says these statements. With a dot in front of its first field it is a
line of labels. Any other first field is a mnemonic, and behind it stands one operand for each that
its form has, of a mode that its position accepts. -/
inductive LineSays (table : Table) : List Lexeme → List Statement → Prop
  | blank : LineSays table [] []
  | labels {first : Lexeme} {rest : List Lexeme} {statements : List Statement}
      (dotted : first.text.toList.head? = some '.')
      (each : List.Forall₂ Declares (first :: rest) statements) :
      LineSays table (first :: rest) statements
  | instruction {first : Lexeme} {operands : List Lexeme} {form : Form} {arguments : List Argument}
      (plain : first.text.toList.head? ≠ some '.') (found : table.lookup? first.text = some form)
      (each : List.Forall₂ Writes operands arguments)
      (accepts : form.Accepts (arguments.map (·.operand.mode))) :
      LineSays table (first :: operands) [instruction ⟨form, arguments, first.location⟩]

theorem declares_iff {field : Lexeme} {statement : Statement} :
    Declares field statement ↔ (Declaration.parse field).map declaration = .ok statement := by
  simp only [map_eq_ok_iff, Declaration.parse_eq_ok_iff, readLabel?_eq_some_iff]
  constructor
  · rintro ⟨text, valid⟩
    exact ⟨_, ⟨⟨by simp [text], valid⟩, rfl⟩, rfl⟩
  · rintro ⟨⟨name, location⟩, ⟨⟨text, valid⟩, rfl⟩, rfl⟩
    refine .name ?_ valid
    rw [← String.toList_inj, text]
    simp

theorem writes_iff {field : Lexeme} {argument : Argument} :
    Writes field argument ↔ Argument.parse field = .ok argument := by
  rw [Argument.parse_eq_ok_iff]
  constructor
  · rintro ⟨resolved⟩
    exact ⟨rfl, rfl, resolved⟩
  · obtain ⟨operand, text, location⟩ := argument
    rintro ⟨rfl, rfl, resolved⟩
    exact .operand resolved

theorem lineSays_iff_reads {statements : List Statement} :
    LineSays table row statements ↔ Reads table row statements := by
  have modes (line : InstructionLine) : line.arguments.map (·.operand.mode) = line.modes := by
    simp [InstructionLine.modes, InstructionLine.operands]
  constructor
  · rintro (_ | ⟨dotted, each⟩ | ⟨plain, found, each, accepts⟩)
    · exact .blank
    · exact .declarations dotted (each.imp fun _ _ => declares_iff.mp)
    · have read := each.imp fun _ _ => writes_iff.mp
      rw [modes ⟨_, _, _⟩] at accepts
      exact .instruction plain found (InstructionLine.parse_eq_ok_iff.mpr ⟨rfl, rfl, read, accepts⟩)
  · rintro (_ | ⟨dotted, each⟩ | @⟨_, _, _, line, plain, found, read⟩)
    · exact .blank
    · exact .labels dotted (each.imp fun _ _ => declares_iff.mpr)
    · obtain ⟨own, arguments, place⟩ := line
      obtain ⟨rfl, rfl, each, accepts⟩ := InstructionLine.parse_eq_ok_iff.mp read
      rw [← modes] at accepts
      exact .instruction plain found (each.imp fun _ _ => writes_iff.mpr) accepts

theorem parse_eq_ok_iff_lineSays {source : String} {statements : List Statement} :
    parse table source = .ok statements ↔
      ∃ parts, List.Forall₂ (LineSays table) (rows source) parts ∧ statements = parts.flatten := by
  have same : LineSays table = Reads table := by
    funext row part
    exact propext lineSays_iff_reads
  rw [parse_eq_ok_iff, same]

/-- What a source means is what its lines say. The rows are the words of each line in front of its
comment; reading them fails only if some line says nothing, and otherwise the statements are those
of the lines, from first to last. The tokens of the source, in one list, mean the same. -/
theorem parse_grammar (table : Table) (source : String) :
    (rows source).map (List.map (·.text.toList)) =
        (lines source.toList).map (fun line => words (splitComment line).1) ∧
      ofTokens table (tokenize table source) = parse table source ∧
      ((∃ statements, parse table source = .ok statements) ↔
        ∀ row ∈ rows source, ∃ part, LineSays table row part) ∧
      ∀ statements, parse table source = .ok statements ↔
        ∃ parts, List.Forall₂ (LineSays table) (rows source) parts ∧
          statements = parts.flatten := by
  refine ⟨texts_rows source, ofTokens_tokenize table source, ?_,
    fun statements => parse_eq_ok_iff_lineSays⟩
  constructor
  · rintro ⟨statements, parsed⟩ row member
    obtain ⟨parts, read, -⟩ := parse_eq_ok_iff_lineSays.mp parsed
    obtain ⟨place, inside, rfl⟩ := List.mem_iff_getElem.mp member
    obtain ⟨part, -, own⟩ := exists_getElem?_of_forall₂ read (List.getElem?_eq_getElem inside)
    exact ⟨part, own⟩
  · intro each
    obtain ⟨parts, read⟩ := exists_forall₂ each
    exact ⟨_, parse_eq_ok_iff_lineSays.mpr ⟨parts, read, rfl⟩⟩

end Statement

end Tetrad
