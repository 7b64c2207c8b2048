import Tetrad.Pattern
import Tetrad.Proofs.Machine.Handlers

/-!
# Kinds of instructions

Each opcode is of one of seven kinds. Each kind has a pattern, and a handler that says what becomes
of an instruction (`Machine.Handles`). What decodes under the standard table fits the pattern of its
own kind and of no other one, and a machine executes it by the handler of that kind
(`Kind.fits_and_runs_of_decode`).
-/

namespace Tetrad

/-- What instructions do, sorted by their handlers. -/
inductive Kind where
  | load
  | store
  | alu
  | compare
  | jump
  | print
  | halt
deriving DecidableEq, Repr

def Opcode.kind : Opcode → Kind
  | move => .load
  | load => .load
  | store => .store
  | alu _ => .alu
  | compare => .compare
  | jump _ => .jump
  | print => .print
  | halt => .halt

/-- The pattern of a kind that asks nothing of the parts of an instruction. -/
def Kind.pattern : Kind → Pattern
  | load => .load .any .any .any
  | store => .store .any .any
  | alu => .alu .any .any .any
  | compare => .compare .any .any
  | jump => .jump .any .any
  | print => .print .any
  | halt => .halt

namespace Machine

variable {σ : Type} {machine : Machine σ} {instruction : Instruction} {kind : Kind}
  {result : Except Fault Effect}

/-- What the handler of a kind makes of an instruction: an effect to perform, or a fault. -/
inductive Handles (machine : Machine σ) : Kind → Instruction → Except Fault Effect → Prop
  | move {target : Register} {source : Operand} :
    Handles machine .load ⟨.move, [.register target, source]⟩
      ((machine.value source).map (.assign target))
  | load {target : Register} {source : Operand} :
    Handles machine .load ⟨.load, [.register target, source]⟩
      ((machine.value source).map (.assign target))
  | store {source : Register} {destination : Operand} :
    Handles machine .store ⟨.store, [.register source, destination]⟩
      ((machine.place destination).map (.store · (machine.registers.get source)))
  | alu {op : AluOp} {target : Register} {source : Operand} :
    Handles machine .alu ⟨.alu op, [.register target, source]⟩
      ((machine.number source).map fun right =>
        .compute target (op.result (machine.registers.get target).toNat right))
  | compare {register : Register} {source : Operand} :
    Handles machine .compare ⟨.compare, [.register register, source]⟩
      ((machine.number source).map (.compare (machine.registers.get register).toNat))
  | taken {condition : Condition} {target : Operand}
      (holds : machine.flags.holds condition = true) :
    Handles machine .jump ⟨.jump condition, [target]⟩ ((machine.place target).map .jump)
  | passed {condition : Condition} {target : Operand}
      (fails : machine.flags.holds condition = false) :
    Handles machine .jump ⟨.jump condition, [target]⟩ (.ok .skip)
  | print {register : Register} :
    Handles machine .print ⟨.print, [.register register]⟩
      (.ok (.print (machine.registers.get register)))
  | halt : Handles machine .halt ⟨.halt, []⟩ (.ok .halt)

/-- A kind handles what fits its pattern, and nothing that fits the pattern of another one. -/
theorem Handles.fits_iff (handles : machine.Handles kind instruction result) (other : Kind) :
    other.pattern.fits instruction = true ↔ other = kind := by
  have same : other.pattern.fits instruction = decide (other = kind) := by
    cases handles with
    | @taken condition target _ | @passed condition target _ =>
      -- What the patterns of one operand say depends on whether it is a register.
      cases target <;> cases other <;> rfl
    | _ => cases other <;> rfl
  rw [same, decide_eq_true_iff]

/-- The kind that handles an instruction is that of its opcode, and what the handler makes of the
instruction is what the machine plans. -/
theorem Handles.eq (handles : machine.Handles kind instruction result) :
    kind = instruction.opcode.kind ∧ result = machine.plan instruction := by
  cases handles with
  | taken holds => exact ⟨rfl, (if_pos holds).symm⟩
  | passed fails => exact ⟨rfl, (if_neg (Bool.eq_false_iff.mp fails)).symm⟩
  | _ => exact ⟨rfl, rfl⟩

/-- An instruction with operands of use has a handler on every machine. -/
theorem handles_of_handled (machine : Machine σ) (handled : instruction.Handled) :
    machine.Handles instruction.opcode.kind instruction (machine.plan instruction) := by
  obtain ⟨opcode, operands⟩ := instruction
  obtain ⟨serves, -⟩ := handled
  -- The roles give the number of operands and which of them are registers.
  cases opcode with
  | halt =>
    cases serves
    exact .halt
  | print =>
    obtain ⟨operand, rfl, takes⟩ := eq_singleton_of_serves serves
    obtain ⟨register, rfl⟩ := register_of_takes takes
    exact .print
  | jump condition =>
    obtain ⟨target, rfl, -⟩ := eq_singleton_of_serves serves
    cases holds : machine.flags.holds condition with
    | true =>
      have planned : machine.plan ⟨.jump condition, [target]⟩ = (machine.place target).map .jump :=
        if_pos holds
      rw [planned]
      exact .taken holds
    | false =>
      have planned : machine.plan ⟨.jump condition, [target]⟩ = .ok .skip :=
        if_neg (Bool.eq_false_iff.mp holds)
      rw [planned]
      exact .passed holds
  | move =>
    obtain ⟨target, source, rfl, -⟩ := eq_pair_of_serves serves
    exact .move
  | load =>
    obtain ⟨target, source, rfl, -⟩ := eq_pair_of_serves serves
    exact .load
  | store =>
    obtain ⟨source, destination, rfl, -⟩ := eq_pair_of_serves serves
    exact .store
  | compare =>
    obtain ⟨register, source, rfl, -⟩ := eq_pair_of_serves serves
    exact .compare
  | alu op =>
    obtain ⟨target, source, rfl, -⟩ := eq_pair_of_serves serves
    exact .alu

/-- Executing an instruction runs the handler of a kind: it counts the step, and performs the effect
or reports the fault that the handler makes of the instruction. -/
def Runs [Sink σ] (machine : Machine σ) (kind : Kind) (instruction : Instruction) : Prop :=
  ∃ result, machine.Handles kind instruction result ∧ machine.execute instruction =
    match result with
    | .error fault => (machine.counted, .error fault)
    | .ok effect => machine.counted.perform effect

theorem runs_iff [Sink σ] (machine : Machine σ) (handled : instruction.Handled) :
    machine.Runs kind instruction ↔ kind = instruction.opcode.kind := by
  constructor
  · rintro ⟨result, handles, -⟩
    exact handles.eq.1
  · rintro rfl
    exact ⟨_, machine.handles_of_handled handled, machine.execute_eq instruction⟩

end Machine

/-- What a word decodes to under the standard table fits the pattern of one kind, that of its opcode,
and this is the kind whose handler every machine runs to execute it. -/
theorem Kind.fits_and_runs_of_decode (word : UInt32) (instruction : Instruction)
    (decoded : Table.standard.decode word = .ok instruction) :
    (∃! kind : Kind, kind.pattern.fits instruction = true) ∧
      ∀ kind : Kind, kind.pattern.fits instruction = true → kind = instruction.opcode.kind ∧
        ∀ {σ : Type} [Sink σ] (machine : Machine σ) (other : Kind),
          machine.Runs other instruction ↔ other = kind := by
  have handled := handled_of_decode Table.handled_standard decoded
  have fits (kind : Kind) : kind.pattern.fits instruction = true ↔
      kind = instruction.opcode.kind :=
    ((Machine.start Table.standard Transcript.empty).handles_of_handled handled).fits_iff kind
  refine ⟨⟨instruction.opcode.kind, (fits _).mpr rfl, fun kind => (fits kind).mp⟩, ?_⟩
  intro kind own
  obtain rfl := (fits kind).mp own
  exact ⟨rfl, fun machine other => machine.runs_iff handled⟩

/-- A conditional jump through a pointer. -/
theorem Kind.fits_and_runs_of_decode_jump :
    Table.standard.decode 0x9D021000 = .ok ⟨.jump .equal, [.indirect (.absolute 0x210)]⟩ ∧
      Kind.jump.pattern.fits ⟨.jump .equal, [.indirect (.absolute 0x210)]⟩ = true ∧
      (∃! kind : Kind,
        kind.pattern.fits ⟨.jump .equal, [.indirect (.absolute 0x210)]⟩ = true) ∧
      Machine.readsOutside.Runs .jump ⟨.jump .equal, [.indirect (.absolute 0x210)]⟩ := by
  have decoded : Table.standard.decode 0x9D021000 =
      .ok ⟨.jump .equal, [.indirect (.absolute 0x210)]⟩ := rfl
  have own : Kind.jump.pattern.fits ⟨.jump .equal, [.indirect (.absolute 0x210)]⟩ = true := by
    decide
  obtain ⟨one, runs⟩ := Kind.fits_and_runs_of_decode _ _ decoded
  exact ⟨decoded, own, one, ((runs .jump own).2 Machine.readsOutside .jump).mpr rfl⟩

end Tetrad
