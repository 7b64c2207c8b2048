import Mathlib.Logic.Relation
import Tetrad.Proofs.Machine.Failing
import Tetrad.Proofs.Machine.Loading
import Tetrad.Proofs.Program.Addresses

/-!
# Following a source

A loaded machine runs the lines of its source. While memory holds the bytes of the program, a step
at the word of a line executes this line, with addresses in the place of labels (`Carries.follows`).
A taken jump to a label goes to the word of the first line below the label
(`Follows.exists_stands`).
-/

namespace Tetrad

namespace Machine

variable {σ : Type} [Sink σ] {machine state : Machine σ} {labels : Labels} {line : InstructionLine}
  {place : Nat}

/-- A step that succeeds leads from one machine to the next. -/
def Leads (machine next : Machine σ) : Prop := ∃ activity, machine.step = (next, .ok activity)

/-- The next step executes a line with addresses in the place of its labels. It does not fail for
want of an instruction, and it halts only where the line says so. -/
structure Follows (machine : Machine σ) (labels : Labels) (line : InstructionLine) : Prop where
  executes : ∃ operands,
    List.Forall₂ (Operand.Located labels.address?) line.operands operands ∧
    machine.Executes ⟨line.form.opcode, operands⟩ ∧
    machine.step = machine.execute ⟨line.form.opcode, operands⟩
  finds : ∀ fault, machine.step.2 = .error fault → fault.stage ≠ .fetching
  halts : machine.step.2 = .ok .halted → line.form.opcode = .halt

theorem stage_of_step_executes {instruction : Instruction} {fault : Fault}
    (executes : machine.Executes instruction) (failed : machine.step.2 = .error fault) :
    fault.stage ≠ .fetching := by
  have failed : machine.step = (machine.step.1, .error fault) := Prod.ext rfl failed
  rcases step_eq_error failed with ⟨-, -, idle, -⟩ | ⟨planning, -⟩ | ⟨register, reason, rfl, -⟩
  · exact absurd executes (idle instruction)
  · rw [planning]
    decide
  · exact nofun

theorem halt_of_step_executes {instruction : Instruction} (executes : machine.Executes instruction)
    (halted : machine.step.2 = .ok .halted) : instruction.opcode = .halt := by
  cases planned : machine.plan instruction with
  | error fault =>
    rw [executes.step_eq, execute_eq, planned] at halted
    cases halted
  | ok effect =>
    rw [executes.step_of_plan planned] at halted
    cases perform_eq_halted halted
    cases plan_eq_ok_iff.mp planned
    rfl

theorem follows_of_executes {instruction : Instruction} (executes : machine.Executes instruction)
    (relocated : line.relocate labels = .ok instruction) : machine.Follows labels line := by
  obtain ⟨opcode, operands⟩ := instruction
  obtain ⟨rfl, located⟩ := InstructionLine.relocate_eq_ok_iff.mp relocated
  refine ⟨⟨operands, located, executes, executes.step_eq⟩, ?_, ?_⟩
  · intro fault failed
    exact stage_of_step_executes executes failed
  · intro halted
    exact halt_of_step_executes executes halted

theorem step_of_jump {condition : Condition} {address : UInt16}
    (executes : machine.Executes ⟨.jump condition, [.direct address]⟩)
    (taken : machine.flags.holds condition = true) (inside : address.toNat < memorySize) :
    machine.step = ({ machine.counted with pc := address }, .ok .running) := by
  have has : machine.place (.direct address) = .ok ⟨address.toNat, inside⟩ := dif_pos inside
  rw [executes.step_of_plan (plan_eq_ok_iff.mpr (.jump taken has)), perform, UInt16.ofNat_toNat]

variable {table : Table} {rom : List UInt8} {words : List UInt32}

theorem Carries.reached (carries : machine.Carries table rom)
    (reached : Relation.ReflTransGen Leads machine state) : state.Carries table rom := by
  induction reached with
  | refl => exact carries
  | tail _ leads ih =>
    obtain ⟨activity, step⟩ := leads
    have carried := ih.step
    rw [step] at carried
    exact carried

variable {source : String} {program : Program}

theorem Carries.follows (carries : machine.Carries table (words.flatMap wordBytes))
    (distinct : (table.forms.map Form.opcode).Nodup)
    (assembled : Program.assemble table loadAddress source = .ok program)
    (encoded : List.Forall₂ (fun line word => line.encode program.labels = .ok word)
      program.instructions words)
    (stands : machine.Stands (words.flatMap wordBytes) place)
    (listed : program.instructions[place]? = some line) : machine.Follows program.labels line := by
  obtain ⟨word, wordListed, own⟩ := exists_getElem?_of_forall₂ encoded listed
  have member := List.mem_of_getElem? listed
  have wellFormed := (Program.wellFormed_and_placed assembled member).1
  obtain ⟨instruction, relocated, decoded⟩ :=
    line.exists_decode_of_encode distinct wellFormed own
  exact follows_of_executes (carries.executes stands wordListed decoded) relocated

/-- A taken jump to a label leads to the place that the label counts. -/
theorem Follows.exists_stands {condition : Condition} {label : Declaration}
    {before after : List Statement} (follows : machine.Follows labels line)
    (stands : machine.Stands rom place) (jump : line.form.opcode = .jump condition)
    (bare : line.operands = [.label label.name]) (taken : machine.flags.holds condition = true)
    (built : Labels.build (before ++ .declaration label :: after) loadAddress = .ok labels)
    (inside : 4 * Statement.count before < romCapacity) :
    ∃ next, machine.step = (next, .ok .running) ∧ next.Stands rom (Statement.count before) := by
  obtain ⟨operands, located, executes, -⟩ := follows.executes
  rw [bare] at located
  obtain ⟨address, found, rfl⟩ := Operand.eq_of_located_label located
  obtain ⟨declared, has, counts⟩ := Labels.address?_of_build built
  cases found.symm.trans has
  rw [jump] at executes
  have room := loadAddress_add_romCapacity
  have step := step_of_jump executes taken (by omega)
  exact ⟨_, step, stands.running, stands.holds, counts⟩

/-- A taken jump to a label goes to the first line below the label, which is executed next. -/
def Lands (machine : Machine σ) (program : Program) (line : InstructionLine) : Prop :=
  ∀ condition label before after, line.form.opcode = .jump condition →
    line.operands = [.label label.name] → machine.flags.holds condition = true →
    program.statements = before ++ .declaration label :: after →
    Statement.count before < program.instructions.length →
    ∃ next target, machine.step = (next, .ok .running) ∧
      next.pc.toNat = 0x200 + 4 * Statement.count before ∧
      (after.filterMap Statement.instruction?).head? = some target ∧
      next.Follows program.labels target

/-- The bytes of a source for the machine as delivered are loaded, and then the machine follows the
source: wherever it has come by steps that succeed, a running machine at the word of a line executes
this line as long as memory still holds the program, and lands at the labels that it jumps to. -/
theorem follows_of_reached (source : String) (program : Program) (machine : Machine σ)
    (assembled : Program.ofSource source = .ok program)
    (fits : 4 * program.instructions.length ≤ 3584) (standard : machine.table = Table.standard) :
    ∃ rom loaded, program.bytes = .ok rom ∧ rom.length = 4 * program.instructions.length ∧
      machine.load rom = .ok loaded ∧ loaded.Stands rom 0 ∧
      ∀ state place line, Relation.ReflTransGen Leads loaded state → state.Stands rom place →
        program.instructions[place]? = some line →
        state.Follows program.labels line ∧ state.Lands program line := by
  have distinct : (Table.standard.forms.map Form.opcode).Nodup := by decide
  obtain ⟨words, encoded, whole⟩ := Program.exists_words assembled
  have length : (words.flatMap wordBytes).length = 4 * program.instructions.length := by
    rw [length_flatMap_wordBytes, encoded.length_eq]
  have room : romCapacity = 3584 := rfl
  have capacity : (words.flatMap wordBytes).length ≤ romCapacity := by omega
  obtain ⟨loaded, loads⟩ := exists_load capacity machine
  refine ⟨_, loaded, whole, length, loads, stands_of_load loads, ?_⟩
  have follows : ∀ state place line, Relation.ReflTransGen Leads loaded state →
      state.Stands (words.flatMap wordBytes) place → program.instructions[place]? = some line →
      state.Follows program.labels line := by
    intro state place line reached
    have carries := (standard ▸ carries_of_load loads).reached reached
    exact carries.follows distinct assembled encoded
  intro state place line reached stands listed
  refine ⟨follows state place line reached stands listed, ?_⟩
  intro condition label before after jump bare taken declared inside
  have built := (Program.assemble_eq_ok_iff.mp assembled).2
  rw [declared] at built
  obtain ⟨next, step, lands⟩ := (follows state place line reached stands listed).exists_stands
    stands jump bare taken built (by omega)
  obtain ⟨target, below⟩ : ∃ target, program.instructions[Statement.count before]? = some target :=
    ⟨_, List.getElem?_eq_getElem inside⟩
  refine ⟨next, target, step, lands.counter, ?_, ?_⟩
  · rw [← Program.instructions_getElem?_count declared]
    exact below
  · exact follows next _ target (reached.tail ⟨_, step⟩) lands below

/-- A program that jumps over a line. -/
def overLine : String := "CMP r1, #1\nJMPL .end\nPRINT r1\n.end\nHLT"

theorem ofSource_overLine : ∃ program, Program.ofSource overLine = .ok program ∧
    program.instructions.length = 4 ∧
    (∃ line, program.instructions[0]? = some line ∧ line.relocate program.labels =
      .ok ⟨.compare, [.register ⟨1⟩, .immediate 1]⟩) ∧
    (∃ line, program.instructions[1]? = some line ∧ line.form.opcode = .jump .less ∧
      line.operands = [.label "end"]) ∧
    program.statements = program.statements.take 3 ++
      .declaration ⟨"end", ⟨4, 0⟩⟩ :: program.statements.drop 4 ∧
    Statement.count (program.statements.take 3) = 3 ∧
    ((program.statements.drop 4).filterMap Statement.instruction?).head?.map (·.form.opcode) =
      some .halt :=
  ⟨_, rfl, rfl, ⟨_, rfl, rfl⟩, ⟨_, rfl, rfl, rfl⟩, rfl, rfl, rfl⟩

/-- After the comparison the jump over the line is taken, and the program halts next. -/
theorem follows_of_reached_less : ∃ program rom loaded state line next target,
    Program.ofSource overLine = .ok program ∧ 4 * program.instructions.length ≤ 3584 ∧
      program.bytes = .ok rom ∧ (start Table.standard Transcript.empty).load rom = .ok loaded ∧
      Relation.ReflTransGen Leads loaded state ∧ state.Stands rom 1 ∧
      program.instructions[1]? = some line ∧ state.Follows program.labels line ∧
      state.step = (next, .ok .running) ∧ next.pc.toNat = 0x20C ∧
      target.form.opcode = .halt ∧ next.Follows program.labels target := by
  obtain ⟨program, assembled, size, ⟨first, atStart, compares⟩, ⟨line, listed, jumps, bare⟩,
    declared, above, halts⟩ := ofSource_overLine
  have fits : 4 * program.instructions.length ≤ 3584 := by omega
  obtain ⟨rom, loaded, whole, -, loads, stands, follows⟩ := follows_of_reached overLine program
    (start Table.standard Transcript.empty) assembled fits rfl
  obtain ⟨state, step, standsNext, less⟩ : ∃ state, loaded.step = (state, .ok .running) ∧
      state.Stands rom 1 ∧ state.flags.holds .less = true := by
    obtain ⟨-, rfl⟩ := load_eq_ok_iff.mp loads
    obtain ⟨operands, located, -, step⟩ := (follows _ 0 first .refl stands atStart).1.executes
    have relocated : first.relocate program.labels = .ok ⟨first.form.opcode, operands⟩ :=
      InstructionLine.relocate_eq_ok_iff.mpr ⟨rfl, located⟩
    obtain ⟨opcode, rfl⟩ := Instruction.mk.inj (Except.ok.inj (compares.symm.trans relocated))
    rw [← opcode] at step
    have less : (Flags.blank.compare (Ord.compare (Registers.blank.get ⟨1⟩).toNat 1)).holds .less =
        true := by decide
    exact ⟨_, step, ⟨rfl, stands.holds, rfl⟩, less⟩
  have reached := Relation.ReflTransGen.single (r := Leads) ⟨.running, step⟩
  obtain ⟨own, lands⟩ := follows state 1 line reached standsNext listed
  obtain ⟨next, target, jumped, counter, below, goesOn⟩ :=
    lands .less ⟨"end", ⟨4, 0⟩⟩ _ _ jumps bare less declared (by omega)
  rw [below] at halts
  refine ⟨program, rom, loaded, state, line, next, target, assembled, fits, whole, loads, reached,
    standsNext, listed, own, jumped, ?_, Option.some.inj halts, goesOn⟩
  rw [counter, above]

end Machine

end Tetrad
