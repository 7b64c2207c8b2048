import Tetrad.Proofs.Program.Layout
import Tetrad.Proofs.Program.Wording

/-!
# Programs one after the other

Two sources with a line feed between them are read one after the other: the rows of the second
follow those of the first and differ in their places only (`Source.rows_append`). Where the second
source assembles at the end of the first, and no label is declared in both, the two are one program.
Its labels lie where they lay in the parts, so every line keeps its word (`Program.bytes_append`).
-/

namespace Tetrad

open Source

/-- The place that lies a number of lines further down. -/
def Location.below (count : Nat) (location : Location) : Location :=
  ⟨location.line + count, location.column⟩

/-- The field with its place a number of lines further down. -/
def Source.Lexeme.below (count : Nat) (field : Lexeme) : Lexeme :=
  ⟨field.text, field.location.below count⟩

namespace Source

theorem lines_append (text other : List Char) :
    lines (text ++ '\n' :: other) = lines text ++ lines other :=
  List.splitOnP_append_cons text other (by decide)

theorem fields_add (number count : Nat) (line : List Char) :
    fields (number + count) line = (fields number line).map (Lexeme.below count) := by
  rw [fields, fields, List.map_filterMap]
  congr 1
  funext piece
  cases piece <;> rfl

theorem rows_append (source other : String) : rows (source ++ "\n" ++ other) =
    rows source ++ (rows other).map (List.map (Lexeme.below (lines source.toList).length)) := by
  have joined : (source ++ "\n" ++ other).toList = source.toList ++ '\n' :: other.toList := by simp
  rw [rows, numbered, joined, lines_append, List.zipIdx_append, List.map_append]
  congr 1
  rw [rows, numbered, List.map_map, Nat.add_comm 1, ← List.map_snd_add_zipIdx_eq_zipIdx,
    List.map_map]
  refine List.map_congr_left fun entry _ => ?_
  exact fields_add entry.2 _ entry.1

end Source

namespace Statement

variable {table : Table} {source other : String} {first second : List Statement}

/-- Sources that are parsed are parsed one after the other, the second up to its places. -/
theorem parse_append (one : parse table source = .ok first) (two : parse table other = .ok second) :
    ∃ copies, parse table (source ++ "\n" ++ other) = .ok (first ++ copies) ∧
      List.Forall₂ Alike second copies := by
  have same : List.Forall₂ (SameRow table) (rows other)
      ((rows other).map (List.map (Lexeme.below (lines source.toList).length))) := by
    refine List.forall₂_map_right_iff.mpr (List.forall₂_same.mpr fun row _ => ?_)
    have texts : (row.map (Lexeme.below (lines source.toList).length)).map Lexeme.text =
        row.map Lexeme.text := by
      rw [List.map_map]
      rfl
    rw [SameRow, texts]
    exact .same _
  have agree := parseRows_agree same
  rw [← parse, two] at agree
  generalize again : parseRows table _ = parsed at agree
  cases agree with
  | @ok _ copies alike =>
    obtain ⟨parts, reads, rfl⟩ := parse_eq_ok_iff.mp one
    obtain ⟨later, rereads, rfl⟩ := parseRows_eq_ok_iff.mp again
    refine ⟨later.flatten, ?_, alike⟩
    rw [parse, rows_append, ← List.flatten_append]
    exact parseRows_eq_ok_iff.mpr ⟨_, List.rel_append reads rereads, rfl⟩

theorem names_append (first second : List Statement) :
    names (first ++ second) = names first ++ names second :=
  List.filterMap_append

theorem names_alike {copies : List Statement} (alike : List.Forall₂ Alike first copies) :
    names copies = names first := by
  induction alike with
  | nil => rfl
  | cons same _ ih =>
    cases same with
    | @declaration label other name =>
      show other.name :: names _ = label.name :: names _
      rw [name, ih]
    | instruction alike => exact ih

end Statement

namespace Labels

variable {base next : UInt16} {first second : List Statement}

theorem positions_append (address : Nat) (first second : List Statement) :
    positions address (first ++ second) =
      positions address first ++ positions (address + 4 * Statement.count first) second := by
  induction first generalizing address with
  | nil => rfl
  | cons statement rest ih =>
    cases statement with
    | declaration label => exact congrArg ((label.name, address) :: ·) (ih address)
    | instruction line =>
      have further : address + 4 + 4 * Statement.count rest =
          address + 4 * Statement.count (.instruction line :: rest) := by
        rw [Statement.count_instruction]
        omega
      rw [← further]
      exact ih (address + 4)

/-- The second statements start where the first ones end. -/
def Joins (base next : UInt16) (first : List Statement) : Prop :=
  next.toNat = base.toNat + 4 * Statement.count first

theorem places_append (joins : Joins base next first) (second : List Statement) :
    (ofPositions (first ++ second) base).places =
      (ofPositions second next).places ++ (ofPositions first base).places := by
  rw [ofPositions, positions_append, ← joins, List.map_append, List.reverse_append]
  rfl

theorem entries_append (joins : Joins base next first) (second : List Statement) :
    (ofPositions (first ++ second) base).entries.Perm
      ((ofPositions first base).entries ++ (ofPositions second next).entries) := by
  have sorted (labels : Labels) : labels.entries.Perm labels.places := List.mergeSort_perm _ _
  refine (sorted _).trans ?_
  rw [places_append joins]
  exact List.perm_append_comm.trans ((sorted _).symm.append (sorted _).symm)

/-- Statements that have a layout on their own, the second where the first end, have one together
if no label is declared in both. -/
theorem hasLayout_append (joins : Joins base next first)
    (apart : (Statement.names first).Disjoint (Statement.names second))
    (one : Statement.HasLayout first base) (two : Statement.HasLayout second next) :
    Statement.HasLayout (first ++ second) base := by
  obtain ⟨own, refersOwn⟩ := hasLayout_iff.mp one
  obtain ⟨later, refersLater⟩ := hasLayout_iff.mp two
  refine hasLayout_iff.mpr ⟨⟨?_, fun _ _ => rfl, ?_, ?_, ?_⟩, ?_⟩
  · rw [Statement.names_append]
    exact own.distinct.append later.distinct apart
  · intro place member
    rw [positions_append, ← joins] at member
    rcases List.mem_append.mp member with member | member
    · exact own.inside place member
    · exact later.inside place member
  · have room := later.room
    rw [joins] at room
    rw [Statement.count_append]
    omega
  · intro line member
    rcases List.mem_append.mp member with member | member
    · exact own.narrow line member
    · exact later.narrow line member
  · intro line member operand inLine name refers
    rw [Statement.names_append]
    rcases List.mem_append.mp member with member | member
    · exact List.mem_append_left _ (refersOwn line member operand inLine name refers)
    · exact List.mem_append_right _ (refersLater line member operand inLine name refers)

/-- A name has an address in the table of both if it has it in one of the tables. -/
theorem address?_ofPositions_append (joins : Joins base next first)
    (apart : (Statement.names first).Disjoint (Statement.names second)) {name : String}
    {address : UInt16} :
    (ofPositions (first ++ second) base).address? name = some address ↔
      (ofPositions first base).address? name = some address ∨
        (ofPositions second next).address? name = some address := by
  have split : (ofPositions (first ++ second) base).address? name =
      ((ofPositions second next).address? name).or ((ofPositions first base).address? name) := by
    rw [address?, places_append joins, List.lookup_append]
    rfl
  rw [split]
  by_cases later : name ∈ Statement.names second
  · have absent : (ofPositions first base).address? name = none :=
      address?_ofPositions_eq_none_iff.mpr fun own => apart own later
    simp [absent]
  · have absent : (ofPositions second next).address? name = none :=
      address?_ofPositions_eq_none_iff.mpr later
    simp [absent]

end Labels

/-- Every label keeps its address. -/
def Labels.Extends (labels others : Labels) : Prop :=
  ∀ name address, labels.address? name = some address → others.address? name = some address

theorem Operand.Located.extends {labels others : Labels} {operand located : Operand}
    (wider : labels.Extends others) (at_ : Located labels.address? operand located) :
    Located others.address? operand located := by
  cases at_ with
  | label found => exact .label (wider _ _ found)
  | indirect found => exact .indirect (wider _ _ found)
  | plain free => exact .plain free

theorem InstructionLine.encode_extends {labels others : Labels} {line : InstructionLine}
    {word : UInt32} (wider : labels.Extends others) (encoded : line.encode labels = .ok word) :
    line.encode others = .ok word := by
  obtain ⟨instruction, relocated, own⟩ := encode_eq_ok_iff.mp encoded
  obtain ⟨opcode, located⟩ := relocate_eq_ok_iff.mp relocated
  have again := located.imp fun _ _ at_ => at_.extends wider
  exact encode_eq_ok_iff.mpr ⟨instruction, relocate_eq_ok_iff.mpr ⟨opcode, again⟩, own⟩

namespace Program

/-- The lines of two programs have the words that they had apart under a table with the labels of
both. -/
theorem bytes_append {first second : List Statement} {labels others both : Labels}
    {rom rest : List UInt8} (wider : labels.Extends both) (widerToo : others.Extends both)
    (one : (Program.mk first labels).bytes = .ok rom)
    (two : (Program.mk second others).bytes = .ok rest) :
    (Program.mk (first ++ second) both).bytes = .ok (rom ++ rest) := by
  obtain ⟨words, encoded, rfl⟩ := bytes_eq_ok_iff.mp one
  obtain ⟨later, encodedToo, rfl⟩ := bytes_eq_ok_iff.mp two
  refine bytes_eq_ok_iff.mpr ⟨words ++ later, ?_, List.flatMap_append⟩
  have again := encoded.imp fun _ _ own => InstructionLine.encode_extends wider own
  have againToo := encodedToo.imp fun _ _ own => InstructionLine.encode_extends widerToo own
  rw [instructions, List.filterMap_append]
  exact List.rel_append again againToo

/-- Two sources that assemble, the second one from the end of the first, assemble as one text if no
label is declared in both. The bytes are those of the first and then those of the second, and the
labels are those of both, at the addresses that they have apart. -/
theorem assemble_append (table : Table) (base next : UInt16) (source other : String)
    (first second : Program) (one : assemble table base source = .ok first)
    (two : assemble table next other = .ok second)
    (joins : next.toNat = base.toNat + 4 * first.instructions.length)
    (apart : (Statement.names first.statements).Disjoint (Statement.names second.statements)) :
    ∃ whole rom rest, assemble table base (source ++ "\n" ++ other) = .ok whole ∧
      first.bytes = .ok rom ∧ second.bytes = .ok rest ∧ whole.bytes = .ok (rom ++ rest) ∧
      whole.labels.base = base ∧
      (∀ name address, whole.labels.address? name = some address ↔
        first.labels.address? name = some address ∨ second.labels.address? name = some address) ∧
      whole.labels.entries.Perm (first.labels.entries ++ second.labels.entries) := by
  obtain ⟨statements, labels⟩ := first
  obtain ⟨later, others⟩ := second
  obtain ⟨parsed, built⟩ := assemble_eq_ok_iff.mp one
  obtain ⟨parsedToo, builtToo⟩ := assemble_eq_ok_iff.mp two
  obtain ⟨words, -, own⟩ := exists_words one
  obtain ⟨wordsToo, -, ownToo⟩ := exists_words two
  -- The second source is read as copies of its statements, with the same labels and bytes.
  obtain ⟨copies, joined, alike⟩ := Statement.parse_append parsed parsedToo
  have copied := eq_ok_of_withoutPlace (Labels.build_alike alike next) builtToo
  have bytes := bytes_alike alike ownToo
  dsimp only at apart built builtToo copied
  rw [← Statement.names_alike alike] at apart
  obtain ⟨layout, rfl⟩ := Labels.build_eq_ok_iff.mp built
  obtain ⟨layoutToo, rfl⟩ := Labels.build_eq_ok_iff.mp copied
  have both := Labels.hasLayout_append joins apart layout layoutToo
  have address? := @Labels.address?_ofPositions_append base next _ _ joins apart
  have whole : assemble table base (source ++ "\n" ++ other) =
      .ok ⟨statements ++ copies, Labels.ofPositions (statements ++ copies) base⟩ :=
    assemble_eq_ok_iff.mpr ⟨joined, Labels.build_eq_ok_iff.mpr ⟨both, rfl⟩⟩
  refine ⟨_, _, _, whole, own, ownToo, ?_, rfl, fun _ _ => address?, ?_⟩
  · refine bytes_append ?_ ?_ own bytes
    · exact fun name address found => address?.mpr (.inl found)
    · exact fun name address found => address?.mpr (.inr found)
  · exact Labels.entries_append joins copies

/-- A program that ends in a comment and a label behind its last word, and another one that fills the
address space from there on. -/
theorem assemble_append_last_word : ∃ first second whole,
    assemble Table.standard 0xFFF4 "jmp .end // forward\nHLT\n.end // here" = .ok first ∧
    assemble Table.standard 0xFFFC ".b\nLDR r1, (.b)" = .ok second ∧
    (Statement.names first.statements).Disjoint (Statement.names second.statements) ∧
    assemble Table.standard 0xFFF4
      ("jmp .end // forward\nHLT\n.end // here" ++ "\n" ++ ".b\nLDR r1, (.b)") = .ok whole ∧
    whole.bytes = .ok ([0x3C, 0xFF, 0xFC, 0, 0, 0, 0, 0] ++ [0x15, 0x1F, 0xFF, 0xC0]) ∧
    whole.labels.address? "end" = some 0xFFFC ∧ whole.labels.address? "b" = some 0xFFFC := by
  obtain ⟨first, one, own, count, names, ending⟩ : ∃ program,
      assemble Table.standard 0xFFF4 "jmp .end // forward\nHLT\n.end // here" = .ok program ∧
      program.bytes = .ok [0x3C, 0xFF, 0xFC, 0, 0, 0, 0, 0] ∧ program.instructions.length = 2 ∧
      Statement.names program.statements = ["end"] ∧
      program.labels.address? "end" = some 0xFFFC := ⟨_, rfl, rfl, rfl, rfl, rfl⟩
  obtain ⟨second, two, later, namesToo, start⟩ : ∃ program,
      assemble Table.standard 0xFFFC ".b\nLDR r1, (.b)" = .ok program ∧
      program.bytes = .ok [0x15, 0x1F, 0xFF, 0xC0] ∧
      Statement.names program.statements = ["b"] ∧
      program.labels.address? "b" = some 0xFFFC := ⟨_, rfl, rfl, rfl, rfl⟩
  have apart : (Statement.names first.statements).Disjoint (Statement.names second.statements) := by
    rw [names, namesToo]
    simp
  obtain ⟨whole, rom, rest, joined, bytes, bytesToo, both, -, labels, -⟩ :=
    assemble_append Table.standard 0xFFF4 0xFFFC _ _ first second one two (by rw [count]; rfl) apart
  cases own.symm.trans bytes
  cases later.symm.trans bytesToo
  exact ⟨first, second, whole, one, two, apart, joined, both, (labels _ _).mpr (.inl ending),
    (labels _ _).mpr (.inr start)⟩

end Program

end Tetrad
