import Tetrad.Machine.Basic
import Tetrad.Word

/-!
# One step of the machine

A step fetches a word, decodes it, plans its effect and performs it. Planning reads the machine and
may fail; performing changes just what the effect names, and only a refused print fails there.
-/

namespace Tetrad

/-- The exact result of an operation on two numbers, or `none` for a division by zero. -/
def AluOp.result (left right : Nat) : AluOp → Option Int
  | add => some (left + right)
  | sub => some (left - right)
  | mul => some (left * right)
  | div => if right = 0 then none else some (left / right)
  | xor => some (left ^^^ right : Nat)
  | and => some (left &&& right : Nat)
  | or => some (left ||| right : Nat)
  | not => some (255 - right % 256 : Nat)

/-- What an instruction does to the machine. -/
inductive Effect where
  | halt
  | assign (target : Register) (value : UInt8)
  | store (address : Fin memorySize) (value : UInt8)
  | compare (left right : Nat)
  | compute (target : Register) (result : Option Int)
  | print (value : UInt8)
  | jump (target : Fin memorySize)
  | skip
deriving DecidableEq, Repr

namespace Machine

variable {σ : Type}

/-- The word at the program counter, which must lie inside the loaded program. -/
def fetch (machine : Machine σ) : Except Fault UInt32 :=
  if machine.pc < loadAddress then .error (.outsideRom machine.pc)
  else if machine.pc.toNat + 4 > machine.romEnd then .error (.truncated machine.pc)
  else match machine.memory.readWord? machine.pc.toNat with
    | some word => .ok word
    | none => .error (.truncated machine.pc)

/-- The address that an operand means. An indirect operand reads it from memory, and an offset to
the program counter wraps around. -/
def effectiveAddress (machine : Machine σ) : Operand → Except Fault Nat
  | .direct address => .ok address.toNat
  | .indirect (.absolute pointer) =>
    match machine.memory.readHalf? pointer.toNat with
    | some address => .ok address.toNat
    | none => .error (.outOfBounds machine.pc pointer.toNat)
  | .registerIndirect base => .ok (machine.registers.get base).toNat
  | .registerRelative offset base => .ok ((machine.registers.get base).toNat + offset.toNat)
  | .indexedScaled base scale index =>
    .ok (base.toNat + scale.toNat * (machine.registers.get index).toNat)
  | .pcRelative offset => .ok (machine.pc + offset).toNat
  | operand => .error (.noAddress operand)

/-- The address that an operand means, which memory must have. -/
def place (machine : Machine σ) (operand : Operand) : Except Fault (Fin memorySize) := do
  let address ← machine.effectiveAddress operand
  if inside : address < memorySize then return ⟨address, inside⟩
  else throw (.outOfBounds machine.pc address)

/-- The byte of a source operand; a literal gives its low byte. -/
def value (machine : Machine σ) : Operand → Except Fault UInt8
  | .immediate value => .ok value.toUInt8
  | .register register => .ok (machine.registers.get register)
  | operand => do
    let address ← machine.place operand
    return machine.memory.bytes[address]

/-- The number of a source operand; a literal keeps all its bits. -/
def number (machine : Machine σ) : Operand → Except Fault Nat
  | .immediate value => .ok value.toNat
  | operand => (machine.value operand).map UInt8.toNat

/-- What an instruction would do. -/
def plan (machine : Machine σ) (instruction : Instruction) : Except Fault Effect :=
  match instruction.opcode, instruction.operands with
  | .halt, [] => .ok .halt
  | .move, [.register target, source] => (machine.value source).map (.assign target)
  | .load, [.register target, source] => (machine.value source).map (.assign target)
  | .store, [.register source, destination] =>
    (machine.place destination).map (.store · (machine.registers.get source))
  | .print, [.register register] => .ok (.print (machine.registers.get register))
  | .compare, [.register register, source] =>
    (machine.number source).map (.compare (machine.registers.get register).toNat)
  | .alu op, [.register target, source] =>
    (machine.number source).map fun right =>
      .compute target (op.result (machine.registers.get target).toNat right)
  | .jump condition, [target] =>
    if machine.flags.holds condition then (machine.place target).map .jump else .ok .skip
  | _, _ => .error (.noHandler machine.pc instruction)

def advance (machine : Machine σ) : Machine σ := { machine with pc := machine.pc + 4 }

/-- Prints a byte as a line. The numeral and the line feed are two writes. -/
def print [Sink σ] (machine : Machine σ) (value : UInt8) : Machine σ × Option Fault :=
  match Sink.write machine.out (Numeral.decimal value.toNat) with
  | (out, some reason) => ({ machine with out := out }, some (.output reason))
  | (out, none) =>
    match Sink.write out "\n" with
    | (out, some reason) => ({ machine with out := out }, some (.output reason))
    | (out, none) => ({ machine with out := out }, none)

def perform [Sink σ] (machine : Machine σ) : Effect → Machine σ × Except Fault Activity
  | .halt => ({ machine with activity := .halted }, .ok .halted)
  | .assign target value =>
    ({ machine with registers := machine.registers.set target value }.advance, .ok .running)
  | .store address value =>
    ({ machine with memory := machine.memory.set address value }.advance, .ok .running)
  | .compare left right =>
    ({ machine with
        registers := machine.registers.set .cmp (UInt8.ofInt ((left : Int) - right))
        flags := machine.flags.compare (Ord.compare left right) }.advance,
      .ok .running)
  | .compute target result =>
    ({ machine with
        registers :=
          match result with
          | none => machine.registers
          | some value => machine.registers.set target (UInt8.ofInt value)
        flags := machine.flags.record result }.advance,
      .ok .running)
  | .print value =>
    match machine.print value with
    | (machine, some fault) => (machine, .error fault)
    | (machine, none) => (machine.advance, .ok .running)
  | .jump target => ({ machine with pc := UInt16.ofNat target.val }, .ok .running)
  | .skip => (machine.advance, .ok .running)

/-- Executes an instruction, which counts as a step even if it fails. -/
def execute [Sink σ] (machine : Machine σ) (instruction : Instruction) :
    Machine σ × Except Fault Activity :=
  let counted := { machine with steps := machine.steps + 1 }
  match counted.plan instruction with
  | .error fault => (counted, .error fault)
  | .ok effect => counted.perform effect

/-- One step. A halted machine stays as it is, and a word with an undefined opcode halts. -/
def step [Sink σ] (machine : Machine σ) : Machine σ × Except Fault Activity :=
  match machine.activity with
  | .halted => (machine, .ok .halted)
  | .running =>
    match machine.fetch with
    | .error fault => (machine, .error fault)
    | .ok word =>
      match machine.table.decode word with
      | .error (.unknownOpcode _) => ({ machine with activity := .halted }, .ok .halted)
      | .error _ => (machine, .error (.malformed machine.pc word))
      | .ok instruction => machine.execute instruction

theorem steps_perform [Sink σ] (machine : Machine σ) (effect : Effect) :
    (machine.perform effect).1.steps = machine.steps := by
  cases effect with
  | print value =>
    simp only [perform, print]
    cases Sink.write machine.out (Numeral.decimal value.toNat) with
    | mk out refused =>
      cases refused with
      | some reason => rfl
      | none =>
        dsimp only
        cases Sink.write out "\n" with
        | mk last refused => cases refused <;> rfl
  | _ => rfl

theorem steps_execute [Sink σ] (machine : Machine σ) (instruction : Instruction) :
    (machine.execute instruction).1.steps = machine.steps + 1 := by
  unfold execute
  dsimp only
  split
  · rfl
  · rw [steps_perform]

/-- A step after which the machine runs on is counted. -/
theorem steps_of_step_running [Sink σ] {machine next : Machine σ}
    (goes : machine.step = (next, .ok .running)) : next.steps = machine.steps + 1 := by
  unfold step at goes
  split at goes
  · cases goes
  · split at goes
    · cases goes
    · split at goes
      · cases goes
      · cases goes
      · next instruction _ =>
        have counted := machine.steps_execute instruction
        rw [goes] at counted
        exact counted

end Machine

end Tetrad
