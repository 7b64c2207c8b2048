import Tetrad.Machine.Step
import Tetrad.Proofs.Failure

namespace Tetrad

inductive Stage where
  | loading
  | fetching
  | planning
  | printing
deriving DecidableEq, Repr

/-- The part in which a fault arises; a word that does not decode belongs to its fetch. -/
def Fault.stage : Fault → Stage
  | romTooLarge _ => .loading
  | truncated _ => .fetching
  | outsideRom _ => .fetching
  | malformed _ _ => .fetching
  | outOfBounds _ _ => .planning
  | noHandler _ _ => .planning
  | noAddress _ => .planning
  | output _ => .printing

/-- A mode whose operands name a place in memory. -/
def Mode.isPlace : Mode → Bool
  | direct => true
  | indirect => true
  | registerIndirect => true
  | registerRelative => true
  | indexedScaled => true
  | pcRelative => true
  | immediate => false
  | register => false
  | label => false

/-- An operand that names a place in memory, no label being left in it. -/
def Operand.HasAddress (operand : Operand) : Prop :=
  operand.mode.isPlace = true ∧ operand.label? = none

/-- An operand that names its value without memory. -/
def Operand.IsLiteral (operand : Operand) : Prop :=
  operand.mode = .immediate ∨ operand.mode = .register

namespace Machine

variable {σ : Type} {machine : Machine σ} {operand : Operand} {instruction : Instruction}
  {fault : Fault}

theorem effectiveAddress_eq_error (failed : machine.effectiveAddress operand = .error fault) :
    (∃ address, fault = .outOfBounds machine.pc address) ∨
      (fault = .noAddress operand ∧ ¬ operand.HasAddress) := by
  cases operand with
  | immediate value | register r | label name =>
    cases failed
    exact .inr ⟨rfl, fun has => by cases has.1⟩
  | indirect pointer =>
    cases pointer with
    | label name =>
      cases failed
      exact .inr ⟨rfl, fun has => by cases has.2⟩
    | absolute pointer =>
      rw [effectiveAddress] at failed
      split at failed
      · cases failed
      · cases failed
        exact .inl ⟨_, rfl⟩
  | _ => cases failed

theorem place_eq_error (failed : machine.place operand = .error fault) :
    (∃ address, fault = .outOfBounds machine.pc address) ∨
      (fault = .noAddress operand ∧ ¬ operand.HasAddress) := by
  rcases bind_eq_error_iff.mp failed with failed | ⟨address, -, failed⟩
  · exact effectiveAddress_eq_error failed
  · split at failed
    · cases failed
    · cases failed
      exact .inl ⟨address, rfl⟩

/-- A value is missing only behind an operand that names a place, and for that place's reason. -/
theorem value_eq_error (failed : machine.value operand = .error fault) :
    machine.place operand = .error fault ∧ ¬ operand.IsLiteral := by
  have place_failed :
      (machine.place operand >>= fun address => pure machine.memory.bytes[address]) =
        .error fault → machine.place operand = .error fault := by
    intro failed
    rcases bind_eq_error_iff.mp failed with failed | ⟨address, -, impossible⟩
    · exact failed
    · cases impossible
  cases operand with
  | immediate value | register r => cases failed
  | _ => exact ⟨place_failed failed, by simp [Operand.IsLiteral, Operand.mode]⟩

theorem number_eq_error (failed : machine.number operand = .error fault) :
    machine.value operand = .error fault := by
  cases operand with
  | immediate value => cases failed
  | _ => exact (map_eq_error_iff (f := UInt8.toNat)).mp failed

/-- What the handlers plan, one rule for each. -/
inductive Plans (machine : Machine σ) : Instruction → Effect → Prop
  | halt : Plans machine ⟨.halt, []⟩ .halt
  | move {target : Register} {source : Operand} {value : UInt8}
      (has : machine.value source = .ok value) :
      Plans machine ⟨.move, [.register target, source]⟩ (.assign target value)
  | load {target : Register} {source : Operand} {value : UInt8}
      (has : machine.value source = .ok value) :
      Plans machine ⟨.load, [.register target, source]⟩ (.assign target value)
  | store {source : Register} {destination : Operand} {address : Fin memorySize}
      (has : machine.place destination = .ok address) :
      Plans machine ⟨.store, [.register source, destination]⟩
        (.store address (machine.registers.get source))
  | print {register : Register} :
      Plans machine ⟨.print, [.register register]⟩ (.print (machine.registers.get register))
  | compare {register : Register} {source : Operand} {right : Nat}
      (has : machine.number source = .ok right) :
      Plans machine ⟨.compare, [.register register, source]⟩
        (.compare (machine.registers.get register).toNat right)
  | alu {op : AluOp} {target : Register} {source : Operand} {right : Nat}
      (has : machine.number source = .ok right) :
      Plans machine ⟨.alu op, [.register target, source]⟩
        (.compute target (op.result (machine.registers.get target).toNat right))
  | jump {condition : Condition} {target : Operand} {address : Fin memorySize}
      (taken : machine.flags.holds condition = true) (has : machine.place target = .ok address) :
      Plans machine ⟨.jump condition, [target]⟩ (.jump address)
  | skip {condition : Condition} {target : Operand}
      (passed : machine.flags.holds condition = false) :
      Plans machine ⟨.jump condition, [target]⟩ .skip

theorem plan_eq_ok_iff {effect : Effect} :
    machine.plan instruction = .ok effect ↔ machine.Plans instruction effect := by
  constructor
  · intro planned
    obtain ⟨opcode, operands⟩ := instruction
    unfold plan at planned
    dsimp only at planned
    split at planned
    · cases planned
      exact .halt
    · obtain ⟨value, has, rfl⟩ := map_eq_ok_iff.mp planned
      exact .move has
    · obtain ⟨value, has, rfl⟩ := map_eq_ok_iff.mp planned
      exact .load has
    · obtain ⟨address, has, rfl⟩ := map_eq_ok_iff.mp planned
      exact .store has
    · cases planned
      exact .print
    · obtain ⟨right, has, rfl⟩ := map_eq_ok_iff.mp planned
      exact .compare has
    · obtain ⟨right, has, rfl⟩ := map_eq_ok_iff.mp planned
      exact .alu has
    · split at planned
      · next taken =>
        obtain ⟨address, has, rfl⟩ := map_eq_ok_iff.mp planned
        exact .jump taken has
      · next passed =>
        cases planned
        exact .skip (by simpa using passed)
    · cases planned
  · intro plans
    cases plans with
    | halt | print => rfl
    | move has | load has | store has | compare has | alu has =>
      exact map_eq_ok_iff.mpr ⟨_, has, rfl⟩
    | jump taken has => exact (if_pos taken).trans (map_eq_ok_iff.mpr ⟨_, has, rfl⟩)
    | skip passed => exact if_neg (Bool.eq_false_iff.mp passed)

/-- A plan fails for want of a handler, or as one of the operands has no value or place. -/
theorem plan_eq_error (failed : machine.plan instruction = .error fault) :
    fault = .noHandler machine.pc instruction ∨
      ∃ operand ∈ instruction.operands, machine.place operand = .error fault := by
  obtain ⟨opcode, operands⟩ := instruction
  unfold plan at failed
  dsimp only at failed
  split at failed
  · cases failed
  · next target source =>
    exact .inr ⟨source, by simp, (value_eq_error (map_eq_error_iff.mp failed)).1⟩
  · next target source =>
    exact .inr ⟨source, by simp, (value_eq_error (map_eq_error_iff.mp failed)).1⟩
  · next source destination => exact .inr ⟨destination, by simp, map_eq_error_iff.mp failed⟩
  · cases failed
  · next left source =>
    have failed := number_eq_error (map_eq_error_iff.mp failed)
    exact .inr ⟨source, by simp, (value_eq_error failed).1⟩
  · next op target source =>
    have failed := number_eq_error (map_eq_error_iff.mp failed)
    exact .inr ⟨source, by simp, (value_eq_error failed).1⟩
  · next condition target =>
    split at failed
    · exact .inr ⟨target, by simp, map_eq_error_iff.mp failed⟩
    · cases failed
  · cases failed
    exact .inl rfl

theorem stage_of_plan (failed : machine.plan instruction = .error fault) :
    fault.stage = .planning := by
  rcases plan_eq_error failed with rfl | ⟨operand, -, failed⟩
  · rfl
  · rcases place_eq_error failed with ⟨address, rfl⟩ | ⟨rfl, -⟩
    · rfl
    · rfl

/-- The plan is the same whatever the machine has counted and printed. -/
theorem plan_counted (machine : Machine σ) (instruction : Instruction) (steps : Nat) (out : σ) :
    { machine with steps := steps, out := out }.plan instruction = machine.plan instruction := rfl

end Machine

end Tetrad
