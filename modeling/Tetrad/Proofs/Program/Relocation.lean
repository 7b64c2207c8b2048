import Tetrad.Program.Assemble
import Tetrad.Proofs.Word.Operands

namespace Tetrad

namespace Labels

variable {address : Nat} {known places : List (String × UInt16)} {statements rest : List Statement}

theorem place_declaration_eq_ok_iff {label : Declaration} :
    place address known (.declaration label :: rest) = .ok places ↔
      address < addressSpace ∧ known.lookup label.name = none ∧
        place address ((label.name, UInt16.ofNat address) :: known) rest = .ok places := by
  rw [place]
  by_cases outside : address ≥ addressSpace
  · simp [outside, Nat.not_lt.mpr outside]
  · cases found : known.lookup label.name with
    | some other => simp [outside]
    | none => simp [outside, Nat.lt_of_not_le outside]

theorem place_instruction_eq_ok_iff {line : InstructionLine} :
    place address known (.instruction line :: rest) = .ok places ↔
      line.layoutBits ≤ 32 ∧ address + 4 ≤ addressSpace ∧
        place (address + 4) known rest = .ok places := by
  rw [place]
  by_cases wide : line.layoutBits > 32
  · simp [wide, Nat.not_le.mpr wide]
  · by_cases outside : address + 4 > addressSpace
    · simp [wide, outside, Nat.not_le.mpr outside]
    · simp [wide, outside, Nat.le_of_not_gt wide, Nat.le_of_not_gt outside]

theorem layoutBits_le_of_place (placed : place address known statements = .ok places)
    {line : InstructionLine} (member : .instruction line ∈ statements) : line.layoutBits ≤ 32 := by
  induction statements generalizing address known with
  | nil => cases member
  | cons statement rest ih =>
    cases statement with
    | declaration label =>
      obtain ⟨-, -, later⟩ := place_declaration_eq_ok_iff.mp placed
      obtain impossible | member := List.mem_cons.mp member
      · cases impossible
      · exact ih later member
    | instruction first =>
      obtain ⟨fits, -, later⟩ := place_instruction_eq_ok_iff.mp placed
      obtain same | member := List.mem_cons.mp member
      · cases same
        exact fits
      · exact ih later member

theorem undefined?_eq_none_iff {labels : Labels} {arguments : List Argument} :
    labels.undefined? arguments = none ↔ ∀ argument ∈ arguments, ∀ name,
      argument.operand.label? = some name → ∃ address, labels.address? name = some address := by
  rw [undefined?, List.findSome?_eq_none_iff]
  refine forall₂_congr fun argument _ => ?_
  cases refers : argument.operand.label? with
  | none => simp
  | some name => simp [Option.isSome_iff_exists]

end Labels

/-- An instruction line fits a word, and every label that it refers to has an address. -/
structure InstructionLine.Placed (labels : Labels) (line : InstructionLine) : Prop where
  fits : line.layoutBits ≤ 32
  defined : ∀ argument ∈ line.arguments, ∀ name, argument.operand.label? = some name →
    ∃ address, labels.address? name = some address

/-- A label table is built only when every instruction line is placed. -/
theorem Labels.placed_of_build {statements : List Statement} {base : UInt16} {labels : Labels}
    (built : build statements base = .ok labels) {line : InstructionLine}
    (member : line ∈ statements.filterMap Statement.instruction?) : line.Placed labels := by
  obtain ⟨places, placed, built⟩ := bind_eq_ok_iff.mp built
  dsimp only at built
  split at built
  · cases built
  · next complete =>
    cases built
    obtain ⟨statement, inSource, isLine⟩ := List.mem_filterMap.mp member
    cases statement with
    | declaration label => cases isLine
    | instruction own =>
      cases isLine
      refine ⟨layoutBits_le_of_place placed inSource, fun argument inLine => ?_⟩
      have referring := List.mem_flatMap.mpr ⟨line, member, inLine⟩
      exact undefined?_eq_none_iff.mp complete argument referring

/-- An operand and what it becomes: a bare label a direct address, an indirect label an indirect
address, and an operand without a label what it was. -/
inductive Operand.Located (address? : String → Option UInt16) : Operand → Operand → Prop
  | label {name : String} {address : UInt16} (found : address? name = some address) :
    Located address? (.label name) (.direct address)
  | indirect {name : String} {address : UInt16} (found : address? name = some address) :
    Located address? (.indirect (.label name)) (.indirect (.absolute address))
  | plain {operand : Operand} (free : operand.label? = none) : Located address? operand operand

namespace Operand

variable {address? : String → Option UInt16} {operand located : Operand}

theorem relocate?_eq_some_iff :
    operand.relocate? address? = some located ↔ Located address? operand located := by
  constructor
  · intro relocated
    cases operand with
    | label name =>
      obtain ⟨address, found, rfl⟩ := Option.map_eq_some_iff.mp relocated
      exact .label found
    | indirect pointer =>
      cases pointer with
      | absolute value =>
        cases relocated
        exact .plain rfl
      | label name =>
        obtain ⟨address, found, rfl⟩ := Option.map_eq_some_iff.mp relocated
        exact .indirect found
    | _ =>
      cases relocated
      exact .plain rfl
  · rintro (found | found | free)
    · exact Option.map_eq_some_iff.mpr ⟨_, found, rfl⟩
    · exact Option.map_eq_some_iff.mpr ⟨_, found, rfl⟩
    · cases operand with
      | label name => cases free
      | indirect pointer =>
        cases pointer with
        | absolute value => rfl
        | label name => cases free
      | _ => rfl

theorem exists_located (defined : ∀ name, operand.label? = some name →
    ∃ address, address? name = some address) : ∃ located, Located address? operand located := by
  cases operand with
  | label name =>
    obtain ⟨address, found⟩ := defined name rfl
    exact ⟨_, .label found⟩
  | indirect pointer =>
    cases pointer with
    | absolute value => exact ⟨_, .plain rfl⟩
    | label name =>
      obtain ⟨address, found⟩ := defined name rfl
      exact ⟨_, .indirect found⟩
  | _ => exact ⟨_, .plain rfl⟩

theorem Located.label?_eq_none (at_ : Located address? operand located) :
    located.label? = none := by
  cases at_ with
  | label found | indirect found => rfl
  | plain free => exact free

theorem Located.mode_eq (at_ : Located address? operand located) :
    located.mode = operand.mode.stored := by
  cases at_ with
  | label found | indirect found => rfl
  | plain free =>
    cases operand with
    | label name => cases free
    | _ => rfl

theorem Located.inRange (at_ : Located address? operand located) (inRange : operand.InRange) :
    located.InRange := by
  cases at_ with
  | label found | indirect found => trivial
  | plain free => exact inRange

theorem eq_of_located_label {name : String} {results : List Operand}
    (all : List.Forall₂ (Located address?) [.label name] results) :
    ∃ address, address? name = some address ∧ results = [.direct address] := by
  obtain ⟨operand, rest, only, none, rfl⟩ := List.forall₂_cons_left_iff.mp all
  cases none
  cases only with
  | label found => exact ⟨_, found, rfl⟩
  | plain free => cases free

theorem modes_of_located {operands results : List Operand}
    (all : List.Forall₂ (Located address?) operands results) :
    results.map mode = (operands.map mode).map Mode.stored := by
  induction all with
  | nil => rfl
  | cons first _ ih =>
    rw [List.map_cons, List.map_cons, List.map_cons, first.mode_eq, ih]

end Operand

namespace InstructionLine

theorem relocateArgument_eq_ok_iff {labels : Labels} {argument : Argument} {located : Operand} :
    relocateArgument labels argument = .ok located ↔
      Operand.Located labels.address? argument.operand located := by
  rw [relocateArgument, ← Operand.relocate?_eq_some_iff]
  cases argument.operand.relocate? labels.address? <;> simp

theorem relocate_eq_ok_iff {labels : Labels} {line : InstructionLine} {instruction : Instruction} :
    line.relocate labels = .ok instruction ↔ instruction.opcode = line.form.opcode ∧
      List.Forall₂ (Operand.Located labels.address?) line.operands instruction.operands := by
  obtain ⟨opcode, operands⟩ := instruction
  simp only [relocate, map_eq_ok_iff, mapM_eq_ok_iff_forall₂, relocateArgument_eq_ok_iff,
    Instruction.mk.injEq, InstructionLine.operands, List.forall₂_map_left_iff]
  constructor
  · rintro ⟨found, located, rfl, rfl⟩
    exact ⟨rfl, located⟩
  · rintro ⟨rfl, located⟩
    exact ⟨operands, located, rfl, rfl⟩

theorem Placed.exists_relocate {labels : Labels} {line : InstructionLine}
    (placed : line.Placed labels) : ∃ instruction, line.relocate labels = .ok instruction := by
  have each : ∀ operand ∈ line.operands, ∃ located,
      Operand.Located labels.address? operand located := by
    intro operand member
    obtain ⟨argument, inLine, rfl⟩ := List.mem_map.mp member
    exact Operand.exists_located (placed.defined argument inLine)
  obtain ⟨operands, located⟩ := exists_forall₂ each
  exact ⟨⟨line.form.opcode, operands⟩, relocate_eq_ok_iff.mpr ⟨rfl, located⟩⟩

end InstructionLine

end Tetrad
