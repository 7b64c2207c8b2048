import Tetrad.Proofs.Machine.Loading
import Tetrad.Proofs.Machine.Meaning

namespace Tetrad

namespace Machine

variable {σ : Type} {machine : Machine σ} {operand : Operand} {instruction : Instruction}

/-- The instruction loads or stores through the operand, or it is a jump to the operand that is
taken. -/
structure Accesses (machine : Machine σ) (instruction : Instruction) (operand : Operand) :
    Prop where
  listed : operand ∈ instruction.operands
  names : operand.mode.isPlace = true
  opcode : instruction.opcode = .load ∨ instruction.opcode = .store ∨
    ∃ condition, instruction.opcode = .jump condition ∧ machine.flags.holds condition = true

/-- What becomes of a machine that accesses an address. A load puts the byte that is there into its
register, a store puts the value of its register there and leaves every other byte, and a jump goes
there. -/
inductive Reaches (machine : Machine σ) (address : Nat) : Instruction → Machine σ → Prop
  | load {target : Register} {operand : Operand} {value : UInt8}
      (read : machine.memory.read? address = some value) :
      Reaches machine address ⟨.load, [.register target, operand]⟩
        { machine.counted with registers := machine.registers.set target value }.advance
  | store {source : Register} {operand : Operand} {memory : Memory}
      (written : ∀ other, memory.read? other =
        if other = address then some (machine.registers.get source)
        else machine.memory.read? other) :
      Reaches machine address ⟨.store, [.register source, operand]⟩
        { machine.counted with memory := memory }.advance
  | jump {condition : Condition} {operand : Operand} {pc : UInt16} (lands : pc.toNat = address) :
      Reaches machine address ⟨.jump condition, [operand]⟩ { machine.counted with pc := pc }

theorem value_of_isPlace (names : operand.mode.isPlace = true) :
    machine.value operand = (machine.place operand).map fun address =>
      machine.memory.bytes.get address := by
  have same : machine.value operand =
      (machine.place operand >>= fun address => pure machine.memory.bytes[address]) := by
    cases operand with
    | immediate value | register register => cases names
    | _ => rfl
  rw [same]
  cases machine.place operand <;> rfl

theorem eq_of_mem_pair {register : Register} {other : Operand}
    (listed : operand ∈ [.register register, other]) (names : operand.mode.isPlace = true) :
    operand = other := by
  rcases List.mem_pair.mp listed with rfl | same
  · cases names
  · exact same

/-- The place of the operand is all that the plan waits for, and performing it reaches this
place. -/
theorem exists_plan_of_accesses [Sink σ] (handled : instruction.Handled)
    (accesses : machine.Accesses instruction operand) :
    ∃ effect : Fin memorySize → Effect,
      machine.plan instruction = (machine.place operand).map effect ∧
      ∀ address, ∃ next, machine.counted.perform (effect address) = (next, .ok .running) ∧
        machine.Reaches address.val instruction next := by
  obtain ⟨opcode, operands⟩ := instruction
  obtain ⟨listed, names, rfl | rfl | ⟨condition, rfl, taken⟩⟩ := accesses
  · obtain ⟨target, source, rfl, -⟩ := eq_pair_of_serves handled.serves
    obtain rfl : operand = source := eq_of_mem_pair listed names
    refine ⟨fun address => .assign target machine.memory.bytes[address], ?_, ?_⟩
    · have plan : machine.plan ⟨.load, [.register target, operand]⟩ =
          (machine.value operand).map (.assign target) := rfl
      rw [plan, value_of_isPlace names]
      cases machine.place operand <;> rfl
    · intro address
      have read : machine.memory.read? address.val = some machine.memory.bytes[address] :=
        Vector.getElem?_eq_getElem address.isLt
      exact ⟨_, rfl, .load read⟩
  · obtain ⟨source, destination, rfl, -⟩ := eq_pair_of_serves handled.serves
    obtain rfl : operand = destination := eq_of_mem_pair listed names
    refine ⟨(.store · (machine.registers.get source)), rfl, fun address => ⟨_, rfl, .store ?_⟩⟩
    intro other
    simp only [counted, Memory.read?_set, eq_comm]
  · obtain ⟨target, rfl, -⟩ := eq_singleton_of_serves handled.serves
    obtain rfl := List.mem_singleton.mp listed
    exact ⟨.jump, if_pos taken, fun address => ⟨_, rfl, .jump (toNat_place address)⟩⟩

/-- An instruction that accesses memory fails as out of bounds, at its own program counter, just
where its operand misses memory. Otherwise it succeeds and reaches the address that the operand
means, which memory has. -/
theorem reaches_of_accesses [Sink σ] (machine : Machine σ) (instruction : Instruction)
    (operand : Operand) (standard : machine.table = Table.standard)
    (executes : machine.Executes instruction) (accesses : machine.Accesses instruction operand) :
    ((∃ address, machine.step.2 = .error (.outOfBounds machine.pc address)) ↔
      machine.Misses operand) ∧
    (¬ machine.Misses operand → ∃ address next, machine.Means operand address ∧ address < 4096 ∧
      machine.step = (next, .ok .running) ∧ machine.Reaches address instruction next) := by
  have handled := executes.handled standard
  have has : operand.HasAddress := ⟨accesses.names, handled.plain operand accesses.listed⟩
  obtain ⟨effect, planned, performed⟩ := exists_plan_of_accesses handled accesses
  rcases place_cases has machine with ⟨misses, address, failed⟩ |
    ⟨found, address, means, placed⟩
  · rw [failed] at planned
    have step : machine.step = (machine.counted, .error (.outOfBounds machine.pc address)) := by
      rw [executes.step_eq, execute_eq, planned]
      rfl
    rw [step]
    exact ⟨⟨fun _ => misses, fun _ => ⟨address, rfl⟩⟩, fun found => absurd misses found⟩
  · rw [placed] at planned
    obtain ⟨next, goes, reaches⟩ := performed address
    have step : machine.step = (next, .ok .running) := (executes.step_of_plan planned).trans goes
    rw [step]
    refine ⟨⟨?_, fun misses => absurd misses found⟩, ?_⟩
    · rintro ⟨_, impossible⟩
      cases impossible
    · exact fun _ => ⟨address.val, next, means, address.isLt, rfl, reaches⟩

/-- A machine that stores register 1 through a pointer behind it, which points to the last byte of
memory. -/
def storesLast : Machine Transcript := holding [0x95102040, 0x0FFF0000]

theorem means_storesLast : storesLast.Means (.indirect (.absolute 0x204)) 0xFFF := by
  have holds : storesLast.memory.Holds 0x200
      [0x95, 0x10, 0x20, 0x40, 0x0F, 0xFF, 0x00, 0x00] := Memory.holds_ofBytes (by decide)
  have first : storesLast.memory.read? (0x204 : UInt16).toNat = some 0x0F := holds 4 0x0F rfl
  have second : storesLast.memory.read? ((0x204 : UInt16).toNat + 1) = some 0xFF :=
    holds 5 0xFF rfl
  exact .indirect first second

set_option maxRecDepth 8000 in
/-- The last byte of memory is stored to, and nothing behind it is loaded. -/
theorem reaches_of_accesses_last_byte :
    (∃ next, storesLast.Executes ⟨.store, [.register ⟨1⟩, .indirect (.absolute 0x204)]⟩ ∧
      storesLast.step = (next, .ok .running) ∧
      storesLast.Reaches 0xFFF ⟨.store, [.register ⟨1⟩, .indirect (.absolute 0x204)]⟩ next) ∧
    readsOutside.Executes ⟨.load, [.register ⟨1⟩, .indirect (.absolute 0xFFFF)]⟩ ∧
    ∃ address, readsOutside.step.2 = .error (.outOfBounds readsOutside.pc address) := by
  have executes : storesLast.Executes ⟨.store, [.register ⟨1⟩, .indirect (.absolute 0x204)]⟩ :=
    executes_of_holding [0x95102040, 0x0FFF0000] 0 (by decide) rfl rfl rfl rfl
  have outside : readsOutside.Executes ⟨.load, [.register ⟨1⟩, .indirect (.absolute 0xFFFF)]⟩ :=
    ⟨rfl, 0x151FFFF0, rfl, rfl⟩
  have found := not_misses_of_means means_storesLast (by decide)
  obtain ⟨address, next, means, -, step, reaches⟩ := (reaches_of_accesses storesLast _ _ rfl
    executes ⟨by simp, rfl, .inr (.inl rfl)⟩).2 found
  cases means.unique means_storesLast
  refine ⟨⟨next, executes, step, reaches⟩, outside, ?_⟩
  exact (reaches_of_accesses readsOutside _ _ rfl outside ⟨by simp, rfl, .inl rfl⟩).1.mpr
    (.inr ⟨0xFFFF, rfl, by decide⟩)

end Machine

end Tetrad
