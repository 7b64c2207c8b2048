import Tetrad.Proofs.Program.Alike
import Tetrad.Proofs.Program.Grammar
import Tetrad.Proofs.Source.Letters

/-!
# Sources of the same words

What a source assembles to is in the words of its lines (`Source.wording`), whatever blanks, commas,
comments and empty lines stand among them, and however its mnemonics are capitalised. Two sources of
the same words agree (`Program.assemble_agree`): both are programs with the same labels and bytes,
or both are refused for the same cause.
-/

namespace Tetrad

open Source

theorem forall₂_eq_iff_map_eq {α β γ : Type} {f : α → γ} {g : β → γ} {items : List α}
    {others : List β} : List.Forall₂ (fun item other => f item = g other) items others ↔
      items.map f = others.map g := by
  rw [← List.forall₂_eq_eq_eq, List.forall₂_map_left_iff, List.forall₂_map_right_iff]

/-- Two computations come to related values, or fail for the same cause. -/
inductive AgreeOn {α β : Type} (R : α → β → Prop) :
    Except AssemblyError α → Except AssemblyError β → Prop
  | ok {value : α} {other : β} (related : R value other) : AgreeOn R (.ok value) (.ok other)
  | error {reason other : AssemblyError} (cause : other.cause = reason.cause) :
    AgreeOn R (.error reason) (.error other)

section Agreement

variable {α β γ δ : Type} {R : α → β → Prop} {S : γ → δ → Prop}

theorem AgreeOn.bind {first : Except AssemblyError α} {second : Except AssemblyError β}
    {next : α → Except AssemblyError γ} {following : β → Except AssemblyError δ}
    (agree : AgreeOn R first second)
    (further : ∀ value other, R value other → AgreeOn S (next value) (following other)) :
    AgreeOn S (first >>= next) (second >>= following) := by
  cases agree with
  | ok related => exact further _ _ related
  | error cause => exact .error cause

theorem AgreeOn.imp {T : α → β → Prop} {first : Except AssemblyError α}
    {second : Except AssemblyError β} (agree : AgreeOn R first second)
    (further : ∀ value other, first = .ok value → R value other → T value other) :
    AgreeOn T first second := by
  cases agree with
  | ok related => exact .ok (further _ _ rfl related)
  | error cause => exact .error cause

theorem agreeOn_mapM {items : List γ} {others : List δ} {f : γ → Except AssemblyError α}
    {g : δ → Except AssemblyError β} (all : List.Forall₂ S items others)
    (each : ∀ item other, S item other → AgreeOn R (f item) (g other)) :
    AgreeOn (List.Forall₂ R) (items.mapM f) (others.mapM g) := by
  induction all with
  | nil => exact .ok .nil
  | cons first _ ih =>
    rw [List.mapM_cons, List.mapM_cons]
    refine (each _ _ first).bind fun value other related => ih.bind fun values copies later => ?_
    exact .ok (.cons related later)

theorem agreeOn_of_withoutPlace {first second : Except AssemblyError α}
    (same : withoutPlace first = withoutPlace second) : AgreeOn (· = ·) first second := by
  cases own : first with
  | ok value =>
    rw [eq_ok_of_withoutPlace same own]
    exact .ok rfl
  | error reason =>
    obtain ⟨twin, failed, cause⟩ := exists_error_of_withoutPlace same own
    rw [failed]
    exact .error cause

end Agreement

def Source.SameText (field other : Lexeme) : Prop := field.text = other.text

/-- What an argument says, apart from its place. -/
def Argument.content (argument : Argument) : Operand × String := (argument.operand, argument.text)

theorem declaration_agree {field other : Lexeme} (same : SameText field other) :
    AgreeOn Statement.Alike ((Declaration.parse field).map .declaration)
      ((Declaration.parse other).map .declaration) := by
  unfold Declaration.parse
  rw [same]
  cases readLabel? other.text.toList with
  | none => exact .error rfl
  | some name => exact .ok (.declaration rfl)

theorem argument_agree {field other : Lexeme} (same : SameText field other) :
    AgreeOn (fun argument twin => argument.content = twin.content) (Argument.parse field)
      (Argument.parse other) := by
  unfold Argument.parse
  rw [same]
  cases Operand.resolve other.text with
  | ok operand => exact .ok rfl
  | error reason => cases reason <;> exact .error rfl

namespace InstructionLine

variable {form : Form} {arguments others : List Argument}

theorem misplaced?_content (form : Form)
    (same : arguments.map Argument.content = others.map Argument.content) :
    (misplaced? form arguments).map AssemblyError.cause =
      (misplaced? form others).map AssemblyError.cause := by
  have causes : ∀ arguments : List Argument,
      (misplaced? form arguments).map AssemblyError.cause =
        ((form.operands.zip (arguments.map Argument.content)).zipIdx.find?
          fun entry => !entry.1.1.contains entry.1.2.1.mode).map fun entry =>
            .invalidMode form.mnemonic entry.1.2.2 (entry.2 + 1) entry.1.2.1.mode := by
    intro arguments
    rw [misplaced?, List.zip_map_right, List.zipIdx_map, List.find?_map, Option.map_map,
      Option.map_map]
    rfl
  rw [causes, causes, same]

theorem inconsistent?_content (form : Form)
    (same : arguments.map Argument.content = others.map Argument.content) :
    (inconsistent? form arguments).map AssemblyError.cause =
      (inconsistent? form others).map AssemblyError.cause := by
  have causes : ∀ arguments : List Argument,
      (inconsistent? form arguments).map AssemblyError.cause =
        match form.atFree (arguments.map Argument.content) with
        | [] => none
        | first :: others => (others.find? (·.1.mode.tag != first.1.mode.tag)).map fun other =>
          .inconsistentModes form.mnemonic other.2 first.1.mode other.1.mode := by
    intro arguments
    rw [inconsistent?, Form.atFree_map]
    cases form.atFree arguments with
    | nil => rfl
    | cons first others =>
      rw [List.map_cons]
      dsimp only
      rw [List.find?_map, Option.map_map, Option.map_map]
      rfl
  rw [causes, causes, same]

theorem parse_agree (form : Form) (place twin : Location) {fields copies : List Lexeme}
    (last : Bool) (same : List.Forall₂ SameText fields copies) :
    AgreeOn Alike (parse form place fields last) (parse form twin copies last) := by
  rw [parse_eq, parse_eq, same.length_eq]
  split
  · exact .error rfl
  · split
    · exact .error rfl
    · refine (agreeOn_mapM same fun _ _ => argument_agree).bind ?_
      intro arguments others related
      have contents := forall₂_eq_iff_map_eq.mp related
      have placed := misplaced?_content form contents
      have consistent := inconsistent?_content form contents
      rcases none_or_some_of_causes placed with ⟨own, twin⟩ | ⟨error, copy, own, twin, cause⟩
      · rw [own, twin]
        rcases none_or_some_of_causes consistent with ⟨own, twin⟩ | ⟨error, copy, own, twin, cause⟩
        · have operands := congrArg (List.map Prod.fst) contents
          rw [List.map_map, List.map_map] at operands
          rw [own, twin]
          exact .ok ⟨rfl, operands.symm⟩
        · rw [own, twin]
          exact .error cause
      · rw [own, twin]
        exact .error cause

end InstructionLine

/-- Two lists of words say the same: they are equal, or differ in how they spell a mnemonic of the
table in front of them. -/
inductive SameWords (table : Table) : List String → List String → Prop
  | same (words : List String) : SameWords table words words
  | mnemonic {first second : String} {rest : List String}
      (plain : first.toList.head? ≠ some '.') (known : (table.lookup? first).isSome = true)
      (letters : sameLetters first second = true) :
      SameWords table (first :: rest) (second :: rest)

/-- Two rows of fields whose texts say the same. -/
def SameRow (table : Table) (row other : List Lexeme) : Prop :=
  SameWords table (row.map Lexeme.text) (other.map Lexeme.text)

theorem SameWords.length_eq {table : Table} {words others : List String}
    (same : SameWords table words others) : words.length = others.length := by
  cases same <;> rfl

namespace Statement

variable {table : Table} {row other : List Lexeme}

theorem instruction_agree (form : Form) (place twin : Location) (last : Bool)
    (same : List.Forall₂ SameText row other) : AgreeOn (List.Forall₂ Alike)
      (do return [instruction (← InstructionLine.parse form place row last)])
      (do return [instruction (← InstructionLine.parse form twin other last)]) := by
  refine (InstructionLine.parse_agree form place twin last same).bind ?_
  intro line copy alike
  exact .ok (.cons (.instruction alike) .nil)

theorem parseRow_agree (last : Bool) (same : SameRow table row other) :
    AgreeOn (List.Forall₂ Alike) (parseRow table last row) (parseRow table last other) := by
  unfold SameRow at same
  generalize own : row.map Lexeme.text = words at same
  generalize twin : other.map Lexeme.text = copies at same
  cases same with
  | same =>
    have each : List.Forall₂ SameText row other :=
      forall₂_eq_iff_map_eq.mpr (own.trans twin.symm)
    cases each with
    | nil => exact .ok .nil
    | @cons first second rest others text later =>
      have spelled : first.text = second.text := text
      rw [parseRow, parseRow, spelled]
      split
      · exact agreeOn_mapM (.cons text later) fun _ _ => declaration_agree
      · split
        · exact instruction_agree _ _ _ last later
        · exact .error rfl
  | mnemonic plain known letters =>
    obtain ⟨first, rest, rfl, rfl, others⟩ := List.map_eq_cons_iff.mp own
    obtain ⟨second, copies, rfl, rfl, same⟩ := List.map_eq_cons_iff.mp twin
    have undotted := head?_ne_of_map_toLower rfl (eq_of_beq letters).symm plain
    have later := forall₂_eq_iff_map_eq.mpr (others.trans same.symm)
    obtain ⟨form, found⟩ := Option.isSome_iff_exists.mp known
    have again := (Table.lookup?_congr table letters).symm.trans found
    rw [parseRow, parseRow, if_neg (mt isSome_after?_iff.mp plain),
      if_neg (mt isSome_after?_iff.mp undotted), found, again]
    exact instruction_agree form _ _ last later

theorem parseRows_filter (table : Table) (rows : List (List Lexeme)) :
    parseRows table (rows.filter fun row => !row.isEmpty) = parseRows table rows := by
  have last (rows : List (List Lexeme)) :
      (rows.filter fun row => !row.isEmpty).all List.isEmpty = rows.all List.isEmpty := by
    induction rows with
    | nil => rfl
    | cons row rest ih => cases row <;> simp_all
  induction rows with
  | nil => rfl
  | cons row rest ih =>
    rw [parseRows_cons]
    cases row with
    | nil =>
      rw [List.filter_cons_of_neg (by simp), ih]
      cases parseRows table rest <;> rfl
    | cons first fields =>
      rw [List.filter_cons_of_pos rfl, parseRows_cons, last, ih]

theorem all_isEmpty_of_sameWords {given copies : List (List Lexeme)}
    (same : List.Forall₂ (SameRow table) given copies) :
    given.all List.isEmpty = copies.all List.isEmpty := by
  induction same with
  | nil => rfl
  | @cons row other _ _ first _ ih =>
    have length := first.length_eq
    rw [List.length_map, List.length_map] at length
    have empty : row.isEmpty = other.isEmpty := by cases row <;> cases other <;> simp_all
    rw [List.all_cons, List.all_cons, empty, ih]

theorem parseRows_agree {given copies : List (List Lexeme)}
    (same : List.Forall₂ (SameRow table) given copies) :
    AgreeOn (List.Forall₂ Alike) (parseRows table given) (parseRows table copies) := by
  induction same with
  | nil => exact .ok .nil
  | cons first others ih =>
    rw [parseRows_cons, parseRows_cons, all_isEmpty_of_sameWords others]
    refine (parseRow_agree _ first).bind fun part twin alike => ih.bind fun later copies same => ?_
    exact .ok (List.rel_append alike same)

end Statement

/-- The words of the lines of a source that have any, in front of their comments. -/
def Source.wording (source : String) : List (List String) :=
  ((lines source.toList).map fun line => (words (splitComment line).1).map String.ofList).filter
    fun row => !row.isEmpty

theorem Source.wording_eq (source : String) : wording source =
    ((rows source).filter fun row => !row.isEmpty).map (List.map Lexeme.text) := by
  have texts := congrArg (List.map (List.map String.ofList)) (texts_rows source)
  simp only [List.map_map, Function.comp_def, String.ofList_toList] at texts
  rw [wording, ← texts, List.filter_map]
  congr 2
  funext row
  cases row <;> rfl

variable {table : Table} {source other : String}

theorem Statement.parse_agree
    (same : List.Forall₂ (SameWords table) (wording source) (wording other)) :
    AgreeOn (List.Forall₂ Alike) (parse table source) (parse table other) := by
  rw [wording_eq, wording_eq, List.forall₂_map_left_iff, List.forall₂_map_right_iff] at same
  rw [parse, parse, ← parseRows_filter, ← parseRows_filter table (rows other)]
  exact parseRows_agree same

theorem Program.statements_agree (base : UInt16)
    (same : List.Forall₂ (SameWords table) (wording source) (wording other)) :
    AgreeOn (fun program twin => twin.labels = program.labels ∧
        List.Forall₂ Statement.Alike program.statements twin.statements)
      (assemble table base source) (assemble table base other) := by
  refine (Statement.parse_agree same).bind fun statements copies alike => ?_
  refine (agreeOn_of_withoutPlace (Labels.build_alike alike base)).bind ?_
  rintro labels - rfl
  exact .ok ⟨rfl, alike⟩

/-- Sources of the same words are both programs, with the same labels and bytes, or are both refused
for the same cause. -/
theorem Program.assemble_agree (base : UInt16)
    (same : List.Forall₂ (SameWords table) (wording source) (wording other)) :
    AgreeOn (fun program twin => twin.labels = program.labels ∧
        ∃ rom, program.bytes = .ok rom ∧ twin.bytes = .ok rom)
      (assemble table base source) (assemble table base other) := by
  refine (statements_agree base same).imp ?_
  rintro ⟨statements, labels⟩ ⟨copies, labels⟩ assembled ⟨rfl, alike⟩
  obtain ⟨words, -, whole⟩ := exists_words assembled
  exact ⟨rfl, _, whole, bytes_alike alike whole⟩

/-- A jump, and the same jump spread over a source with comments, commas and other blanks. -/
theorem Program.assemble_agree_spread :
    List.Forall₂ (SameWords Table.standard) (wording "JMP .end\n.end")
        (wording "// start\n,\u00a0jmp,,.end\r\n\n  .end // .end") ∧
      AgreeOn (fun program twin => twin.labels = program.labels ∧
          ∃ rom, program.bytes = .ok rom ∧ twin.bytes = .ok rom)
        (assemble Table.standard 0x200 "JMP .end\n.end")
        (assemble Table.standard 0x200 "// start\n,\u00a0jmp,,.end\r\n\n  .end // .end") := by
  have same : List.Forall₂ (SameWords Table.standard) (wording "JMP .end\n.end")
      (wording "// start\n,\u00a0jmp,,.end\r\n\n  .end // .end") :=
    .cons (.mnemonic (by decide) rfl rfl) (.cons (.same _) .nil)
  exact ⟨same, assemble_agree 0x200 same⟩

end Tetrad
