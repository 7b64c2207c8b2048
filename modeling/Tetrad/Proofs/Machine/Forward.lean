import Tetrad.Proofs.Machine.Ending
import Tetrad.Proofs.Machine.Following
import Tetrad.Proofs.Machine.Reachable

/-!
# Programs that only go forward

A program without stores stays in memory as it was loaded. If all its jumps lead to labels below
them, each step goes on to a later word (`Machine.exists_later`), so the machine ends at the latest
behind the last word (`Machine.exists_ends_of_forward`).
-/

namespace Tetrad

namespace Statement

variable {statements before after : List Statement} {line : InstructionLine} {place : Nat}

/-- No instruction stores, and every jump leads to a label that is declared below it. -/
def Forward : List Statement → Prop
  | [] => True
  | .declaration _ :: rest => Forward rest
  | .instruction line :: rest =>
    line.form.opcode ≠ .store ∧
    (∀ condition, line.form.opcode = .jump condition →
      ∃ label, line.operands = [.label label.name] ∧ .declaration label ∈ rest) ∧
    Forward rest

theorem Forward.of_append (forward : Forward (before ++ after)) : Forward after := by
  induction before with
  | nil => exact forward
  | cons statement rest ih =>
    cases statement with
    | declaration label => exact ih forward
    | instruction line => exact ih forward.2.2

theorem exists_append_of_getElem? (listed : (statements.filterMap instruction?)[place]? = some line) :
    ∃ before after, statements = before ++ .instruction line :: after ∧ count before = place := by
  induction statements generalizing place with
  | nil => cases listed
  | cons statement rest ih =>
    cases statement with
    | declaration label =>
      obtain ⟨before, after, rfl, counts⟩ := ih listed
      exact ⟨.declaration label :: before, after, rfl, counts⟩
    | instruction own =>
      cases place with
      | zero =>
        cases listed
        exact ⟨[], rest, rfl, rfl⟩
      | succ place =>
        obtain ⟨before, after, rfl, counts⟩ := ih listed
        exact ⟨.instruction own :: before, after, rfl, congrArg Nat.succ counts⟩

/-- A jump leads to a label with more instructions above it than the jump itself. -/
theorem Forward.exists_label {condition : Condition} (forward : Forward statements)
    (listed : (statements.filterMap instruction?)[place]? = some line)
    (jump : line.form.opcode = .jump condition) :
    ∃ label before after, line.operands = [.label label.name] ∧
      statements = before ++ .declaration label :: after ∧ place < count before := by
  obtain ⟨above, below, rfl, rfl⟩ := exists_append_of_getElem? listed
  obtain ⟨label, bare, member⟩ := forward.of_append.2.1 condition jump
  obtain ⟨between, after, rfl⟩ := List.append_of_mem member
  refine ⟨label, above ++ .instruction line :: between, after, bare, ?_, ?_⟩
  · rw [List.append_assoc, List.cons_append]
  · rw [count_append, count_instruction]
    omega

theorem Forward.opcode_ne_store (forward : Forward statements)
    (listed : (statements.filterMap instruction?)[place]? = some line) :
    line.form.opcode ≠ .store := by
  obtain ⟨above, below, rfl, -⟩ := exists_append_of_getElem? listed
  exact forward.of_append.1

end Statement

namespace Machine

variable {σ : Type} [Sink σ] {machine next last : Machine σ} {rom : List UInt8}
  {place later size count : Nat} {instruction : Instruction} {effect : Effect}

/-- An effect that neither stores nor jumps leads to the next word. -/
theorem Stands.next_word (stands : machine.Stands rom place)
    (inside : machine.pc.toNat ≤ memorySize) (stores : ∀ address value, effect ≠ .store address value)
    (jumps : ∀ target, effect ≠ .jump target)
    (runs : machine.perform effect = (next, .ok .running)) : next.Stands rom (place + 1) := by
  have counter : machine.advance.pc.toNat = loadAddress.toNat + 4 * (place + 1) := by
    rw [advance_pc inside, stands.counter]
    omega
  cases effect with
  | halt => cases runs
  | store address value => exact absurd rfl (stores address value)
  | jump target => exact absurd rfl (jumps target)
  | print value =>
    rw [perform_print] at runs
    split at runs
    · cases runs
      exact ⟨stands.running, stands.holds, counter⟩
    · cases runs
  | assign | compare | compute | skip =>
    cases runs
    exact ⟨stands.running, stands.holds, counter⟩

omit [Sink σ] in
theorem opcode_of_plans_store {address : Fin memorySize} {value : UInt8}
    (plans : machine.Plans instruction (.store address value)) : instruction.opcode = .store := by
  cases plans
  rfl

omit [Sink σ] in
theorem exists_jump_of_plans {target : Fin memorySize}
    (plans : machine.Plans instruction (.jump target)) :
    ∃ condition operand, instruction = ⟨.jump condition, [operand]⟩ ∧
      machine.place operand = .ok target := by
  cases plans with
  | jump taken has => exact ⟨_, _, rfl, has⟩

omit [Sink σ] in
theorem place_direct {address : UInt16} {target : Fin memorySize}
    (has : machine.place (.direct address) = .ok target) : target.val = address.toNat := by
  by_cases inside : address.toNat < memorySize
  · have own : machine.place (.direct address) = .ok ⟨address.toNat, inside⟩ := dif_pos inside
    rw [own] at has
    cases has
    rfl
  · have none : machine.place (.direct address) = .error _ := dif_neg inside
    rw [none] at has
    cases has

/-- Up to its end after a number of steps the machine stands at words of the program, not before the
given place, and each time further on than the times before. -/
structure Climbs (machine : Machine σ) (rom : List UInt8) (place size count : Nat) : Prop where
  bound : place + count ≤ size + 1
  stands : ∀ i < count, ∃ later, place ≤ later ∧ later ≤ size ∧ (machine.stepped i).Stands rom later
  grows : ∀ i j, i < j → j < count → (machine.stepped i).pc < (machine.stepped j).pc

theorem Stands.climbs (stands : machine.Stands rom place) (within : place ≤ size) :
    machine.Climbs rom place size 1 where
  bound := Nat.add_le_add_right within 1
  stands := by
    intro i first
    cases Nat.lt_one_iff.mp first
    exact ⟨place, Nat.le_refl _, within, stands⟩
  grows := by
    intro i j below first
    omega

/-- A step to a later word is a climb if there is a climb from there. -/
theorem Climbs.step (climbs : next.Climbs rom later size count) (past : place < later)
    (within : place ≤ size) (stands : machine.Stands rom place)
    (step : machine.step = (next, .ok .running)) : machine.Climbs rom place size (count + 1) := by
  have stepped : ∀ i, machine.stepped (i + 1) = next.stepped i := by
    intro i
    rw [stepped_succ, step]
  refine ⟨?_, ?_, ?_⟩
  · have := climbs.bound
    omega
  · intro i inside
    cases i with
    | zero => exact ⟨place, Nat.le_refl _, within, stands⟩
    | succ i =>
      obtain ⟨further, beyond, bounded, there⟩ := climbs.stands i (by omega)
      exact ⟨further, by omega, bounded, (stepped i).symm ▸ there⟩
  · intro i j below inside
    obtain ⟨j, rfl⟩ := Nat.exists_eq_succ_of_ne_zero (Nat.ne_of_gt (Nat.zero_lt_of_lt below))
    rw [Nat.succ_eq_add_one, stepped]
    cases i with
    | zero =>
      obtain ⟨further, beyond, -, there⟩ := climbs.stands j (by omega)
      show machine.pc < _
      rw [UInt16.lt_iff_toNat_lt, stands.counter, there.counter]
      omega
    | succ i =>
      rw [stepped]
      exact climbs.grows i j (by omega) (by omega)

variable {table : Table} {words : List UInt32} {source : String} {program : Program}
  {line : InstructionLine}

omit [Sink σ] in
/-- The operand of a jump becomes the address of a later word, or of the end of the program. -/
theorem exists_target {operands : List Operand} {condition : Condition}
    (assembled : Program.assemble table loadAddress source = .ok program)
    (forward : Statement.Forward program.statements)
    (listed : program.instructions[place]? = some line) (jump : line.form.opcode = .jump condition)
    (located : List.Forall₂ (Operand.Located program.labels.address?) line.operands operands) :
    ∃ address later, operands = [.direct address] ∧ place < later ∧
      later ≤ program.instructions.length ∧
      address.toNat = loadAddress.toNat + 4 * later := by
  obtain ⟨label, before, after, bare, declared, below⟩ := forward.exists_label listed jump
  rw [bare] at located
  obtain ⟨address, found, only⟩ := Operand.eq_of_located_label located
  have built := (Program.assemble_eq_ok_iff.mp assembled).2
  rw [declared] at built
  obtain ⟨known, own, counts⟩ := Labels.address?_of_build built
  cases found.symm.trans own
  refine ⟨address, Statement.count before, only, below, ?_, counts⟩
  have whole : program.instructions.length = Statement.count program.statements := rfl
  rw [whole, declared, Statement.count_append]
  omega

section Loaded

-- A machine carries the words of a forward program that fits in memory.
variable (distinct : (table.forms.map Form.opcode).Nodup)
  (assembled : Program.assemble table loadAddress source = .ok program)
  (encoded : List.Forall₂ (fun line word => line.encode program.labels = .ok word)
    program.instructions words)
  (forward : Statement.Forward program.statements)
  (fits : 4 * program.instructions.length ≤ romCapacity)
  (carries : machine.Carries table (words.flatMap wordBytes))

include distinct assembled encoded forward fits carries

/-- A step after which the machine runs on leads to a later word, or right behind the last one. -/
theorem exists_later (stands : machine.Stands (words.flatMap wordBytes) place)
    (listed : program.instructions[place]? = some line)
    (runs : machine.step = (next, .ok .running)) :
    ∃ later, place < later ∧ later ≤ program.instructions.length ∧
      next.Stands (words.flatMap wordBytes) later := by
  have follows := carries.follows distinct assembled encoded stands listed
  obtain ⟨operands, located, executes, -⟩ := follows.executes
  cases planned : machine.plan ⟨line.form.opcode, operands⟩ with
  | error fault =>
    rw [executes.step_eq, execute_eq, planned] at runs
    cases runs
  | ok effect =>
    rw [executes.step_of_plan planned] at runs
    have plans := plan_eq_ok_iff.mp planned
    by_cases jumps : ∃ target, effect = .jump target
    · obtain ⟨target, rfl⟩ := jumps
      obtain ⟨condition, operand, same, has⟩ := exists_jump_of_plans plans
      obtain ⟨jump, rfl⟩ := Instruction.mk.inj same
      obtain ⟨address, later, only, past, within, counts⟩ :=
        exists_target assembled forward listed jump located
      cases only
      cases runs
      refine ⟨later, past, within, stands.running, stands.holds, ?_⟩
      show (UInt16.ofNat target.val).toNat = loadAddress.toNat + 4 * later
      rw [place_direct has, UInt16.ofNat_toNat, counts]
    · have inside := (List.getElem?_eq_some_iff.mp listed).1
      have room := loadAddress_add_romCapacity
      have low : machine.pc.toNat ≤ memorySize := by
        rw [stands.counter]
        omega
      have stores : ∀ address value, effect ≠ .store address value := by
        rintro address value rfl
        exact forward.opcode_ne_store listed (opcode_of_plans_store plans)
      have counted : machine.counted.Stands (words.flatMap wordBytes) place :=
        ⟨stands.running, stands.holds, stands.counter⟩
      exact ⟨place + 1, by omega, inside,
        counted.next_word low stores (fun target same => jumps ⟨target, same⟩) runs⟩

/-- A forward program ends from wherever it stands: the words that are left become fewer with each
step, and behind the last one nothing is fetched. -/
theorem exists_ends_of_forward (stands : machine.Stands (words.flatMap wordBytes) place)
    (within : place ≤ program.instructions.length) :
    ∃ count last outcome, machine.Ends count last outcome ∧
      machine.Climbs (words.flatMap wordBytes) place program.instructions.length count := by
  induction left : program.instructions.length - place using Nat.strong_induction_on
    generalizing machine place with
  | _ left ih =>
    match step : machine.step with
    | (last, .error fault) => exact ⟨1, last, _, .fail step, stands.climbs within⟩
    | (last, .ok .halted) => exact ⟨1, last, _, .halt step, stands.climbs within⟩
    | (next, .ok .running) =>
      have carried := carries.step
      rw [step] at carried
      by_cases inside : place < program.instructions.length
      · obtain ⟨later, past, bounded, there⟩ := exists_later distinct assembled encoded forward
          fits carries stands (List.getElem?_eq_getElem inside) step
        obtain ⟨count, last, outcome, ends, climbs⟩ :=
          ih (program.instructions.length - later) (by omega) carried there bounded rfl
        exact ⟨count + 1, last, outcome, .next step ends, climbs.step past within stands step⟩
      · have short : (words.flatMap wordBytes).length < 4 * place + 4 := by
          rw [length_flatMap_wordBytes, ← encoded.length_eq]
          omega
        cases step.symm.trans (carries.step_truncated stands short)

end Loaded

/-- A program without stores whose jumps all lead to labels below them ends on a machine as delivered.
It takes at most one step more than it has instructions. The program counter grows with every step,
and memory holds the program all the time, so no instruction is executed twice. -/
theorem ends_of_forward (source : String) (program : Program) (machine : Machine σ)
    (assembled : Program.ofSource source = .ok program)
    (fits : 4 * program.instructions.length ≤ 3584) (standard : machine.table = Table.standard)
    (forward : Statement.Forward program.statements) :
    ∃ rom loaded count last outcome, program.bytes = .ok rom ∧ machine.load rom = .ok loaded ∧
      loaded.Ends count last outcome ∧ count ≤ program.instructions.length + 1 ∧
      (∀ i < count, ∃ place ≤ program.instructions.length, (loaded.stepped i).Stands rom place) ∧
      (∀ i j, i < j → j < count → (loaded.stepped i).pc < (loaded.stepped j).pc) ∧
      loaded.run = (last, outcome) := by
  have distinct : (Table.standard.forms.map Form.opcode).Nodup := by decide
  obtain ⟨words, encoded, whole⟩ := Program.exists_words assembled
  have room : romCapacity = 3584 := rfl
  have capacity : (words.flatMap wordBytes).length ≤ romCapacity := by
    rw [length_flatMap_wordBytes, ← encoded.length_eq]
    omega
  obtain ⟨loaded, loads⟩ := exists_load capacity machine
  have carries := carries_of_load loads
  rw [standard] at carries
  obtain ⟨count, last, outcome, ends, climbs⟩ := exists_ends_of_forward distinct assembled encoded
    forward fits carries (stands_of_load loads) (Nat.zero_le _)
  have bound := climbs.bound
  have states := stepLimit_le_stateCount
  have limit : stepLimit = 100000 := rfl
  refine ⟨_, loaded, count, last, outcome, whole, loads, ends, by omega, ?_, climbs.grows,
    ends.run (by omega)⟩
  intro i inside
  obtain ⟨place, -, bounded, there⟩ := climbs.stands i inside
  exact ⟨place, bounded, there⟩

theorem forward_overLine : ∃ program, Program.ofSource overLine = .ok program ∧
    program.instructions.length = 4 ∧ Statement.Forward program.statements := by
  refine ⟨_, rfl, rfl, nofun, nofun, ⟨nofun, ?_, nofun, nofun, nofun, nofun, trivial⟩⟩
  intro condition jump
  exact ⟨⟨"end", ⟨4, 0⟩⟩, rfl, .tail _ (.head _)⟩

theorem ends_of_forward_overLine : ∃ program rom loaded count last outcome,
    Program.ofSource overLine = .ok program ∧ 4 * program.instructions.length ≤ 3584 ∧
      Statement.Forward program.statements ∧ program.bytes = .ok rom ∧
      (start Table.standard Transcript.empty).load rom = .ok loaded ∧
      loaded.Ends count last outcome ∧ count ≤ 5 ∧ loaded.run = (last, outcome) := by
  obtain ⟨program, assembled, length, forward⟩ := forward_overLine
  have fits : 4 * program.instructions.length ≤ 3584 := by omega
  obtain ⟨rom, loaded, count, last, outcome, whole, loads, ends, few, -, -, runs⟩ :=
    ends_of_forward overLine program (start Table.standard Transcript.empty) assembled fits rfl forward
  exact ⟨program, rom, loaded, count, last, outcome, assembled, fits, forward, whole, loads, ends,
    by omega, runs⟩

end Machine

end Tetrad
