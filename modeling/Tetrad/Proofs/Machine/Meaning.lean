import Tetrad.Proofs.Machine.Handlers
import Tetrad.Proofs.Machine.Reachable

/-!
# What operands mean

An operand names a number, as a literal or in a register (`Machine.Names`), or it means an address,
counted without a bound (`Machine.Means`). The machine finds these numbers (`Names.number_eq`) and
these addresses (`effectiveAddress_eq_ok_iff`), and it has no place for an operand just where memory
lacks the address or the pointer to it (`Machine.Misses`, `place_cases`).
-/

namespace Tetrad

theorem Memory.readHalf?_eq_some_iff {memory : Memory} {address : Nat} {value : UInt16} :
    memory.readHalf? address = some value ↔ ∃ high low, memory.read? address = some high ∧
      memory.read? (address + 1) = some low ∧ high.toNat * 256 + low.toNat = value.toNat := by
  unfold readHalf?
  simp only [Option.bind_eq_bind, Option.bind_eq_some_iff, pure, Option.some.injEq]
  refine exists_congr fun high => ?_
  have joined : ∀ low : UInt8, UInt16.ofNat (high.toNat * 256 + low.toNat) = value ↔
      high.toNat * 256 + low.toNat = value.toNat := by
    intro low
    have := high.toNat_lt
    have := low.toNat_lt
    rw [← UInt16.toNat_inj, UInt16.toNat_ofNat_of_lt' (by show _ < 65536; omega)]
  simp only [joined]
  constructor
  · rintro ⟨first, low, second, value⟩
    exact ⟨low, first, second, value⟩
  · rintro ⟨low, first, second, value⟩
    exact ⟨first, low, second, value⟩

theorem Memory.readHalf?_eq_none_iff {memory : Memory} {address : Nat} :
    memory.readHalf? address = none ↔ ¬ (address < memorySize ∧ address + 1 < memorySize) := by
  have bytes : ∀ address, memory.read? address = none ↔ ¬ address < memorySize := by
    intro address
    rw [Memory.read?_eq_none_iff, Nat.not_lt]
  rw [not_and_or, ← bytes, ← bytes]
  unfold readHalf?
  cases memory.read? address <;> cases memory.read? (address + 1) <;> simp

theorem Memory.inside_of_readWord? {memory : Memory} {address : Nat} {word : UInt32}
    (read : memory.readWord? address = some word) : address + 4 ≤ memorySize := by
  by_contra outside
  have none : memory.readHalf? (address + 2) = none :=
    Memory.readHalf?_eq_none_iff.mpr fun inside => outside inside.2
  rw [readWord?, none] at read
  cases high : memory.readHalf? address <;> rw [high] at read <;> cases read

namespace Machine

variable {σ : Type} {machine : Machine σ} {operand : Operand} {instruction : Instruction}
  {fault : Fault} {number address : Nat} {word : UInt32}

/-- What is executed lies inside memory, so the program counter does not wrap around behind it. -/
theorem Executes.advance_pc (executes : machine.Executes instruction) :
    machine.advance.pc.toNat = machine.pc.toNat + 4 := by
  obtain ⟨-, word, fetched, -⟩ := executes
  have inside := Memory.inside_of_readWord? (fetch_eq_ok_iff.mp fetched).2.2
  exact Machine.advance_pc (by omega)

/-- The number that an operand names without memory: a literal with all its bits, or the byte of a
register. -/
inductive Names (machine : Machine σ) : Operand → Nat → Prop
  | immediate (value : UInt16) : Names machine (.immediate value) value.toNat
  | register (register : Register) :
      Names machine (.register register) (machine.registers.get register).toNat

theorem exists_names (literal : operand.IsLiteral) (machine : Machine σ) :
    ∃ number, machine.Names operand number := by
  cases operand with
  | immediate value => exact ⟨_, .immediate value⟩
  | register register => exact ⟨_, .register register⟩
  | _ => rcases literal with other | other <;> cases other

theorem Names.lt (names : machine.Names operand number) : number < 65536 := by
  cases names with
  | immediate value => exact value.toNat_lt
  | register register => exact Nat.lt_trans (machine.registers.get register).toNat_lt (by decide)

theorem Names.number_eq (names : machine.Names operand number) :
    machine.number operand = .ok number := by
  cases names <;> rfl

theorem toNat_ofInt (result : Int) : ((UInt8.ofInt result).toNat : Int) = result % 256 := by
  simp only [UInt8.ofInt, UInt8.toNat_ofNat']
  omega

/-- The address that an operand means. A pointer is read from two bytes of memory, the first one
being the more significant, and only an offset to the program counter wraps around. -/
inductive Means (machine : Machine σ) : Operand → Nat → Prop
  | direct (address : UInt16) : Means machine (.direct address) address.toNat
  | indirect {pointer : UInt16} {high low : UInt8}
      (first : machine.memory.read? pointer.toNat = some high)
      (second : machine.memory.read? (pointer.toNat + 1) = some low) :
      Means machine (.indirect (.absolute pointer)) (high.toNat * 256 + low.toNat)
  | registerIndirect (base : Register) :
      Means machine (.registerIndirect base) (machine.registers.get base).toNat
  | registerRelative (offset : UInt16) (base : Register) :
      Means machine (.registerRelative offset base)
        ((machine.registers.get base).toNat + offset.toNat)
  | indexedScaled (base : UInt16) (scale : UInt8) (index : Register) :
      Means machine (.indexedScaled base scale index)
        (base.toNat + scale.toNat * (machine.registers.get index).toNat)
  | pcRelative (offset : UInt16) :
      Means machine (.pcRelative offset) ((machine.pc.toNat + offset.toNat) % 65536)

theorem effectiveAddress_eq_ok_iff :
    machine.effectiveAddress operand = .ok address ↔ machine.Means operand address := by
  constructor
  · intro found
    cases operand with
    | indirect pointer =>
      cases pointer with
      | label name => cases found
      | absolute pointer =>
        rw [effectiveAddress] at found
        split at found
        · next value read =>
          cases found
          obtain ⟨high, low, first, second, joined⟩ := Memory.readHalf?_eq_some_iff.mp read
          exact joined ▸ .indirect first second
        · cases found
    | pcRelative offset =>
      cases found
      rw [UInt16.toNat_add]
      exact .pcRelative offset
    | immediate value | register register | label name => cases found
    | _ =>
      cases found
      constructor
  · intro means
    cases means with
    | @indirect pointer high low first second =>
      have := high.toNat_lt
      have := low.toNat_lt
      have value : (UInt16.ofNat (high.toNat * 256 + low.toNat)).toNat =
          high.toNat * 256 + low.toNat :=
        UInt16.toNat_ofNat_of_lt' (by show _ < 65536; omega)
      have read := Memory.readHalf?_eq_some_iff.mpr ⟨high, low, first, second, value.symm⟩
      simp only [effectiveAddress, read, value]
    | pcRelative offset => rw [effectiveAddress, UInt16.toNat_add]
    | _ => rfl

theorem means_of_place {address : Fin memorySize} (placed : machine.place operand = .ok address) :
    machine.Means operand address.val := by
  obtain ⟨number, found, inside⟩ := bind_eq_ok_iff.mp placed
  have means := effectiveAddress_eq_ok_iff.mp found
  split at inside
  · cases inside
    exact means
  · cases inside

theorem place_eq_ok_iff {address : Fin memorySize} :
    machine.place operand = .ok address ↔ machine.Means operand address.val := by
  refine ⟨means_of_place, fun means => ?_⟩
  exact bind_eq_ok_iff.mpr ⟨address.val, effectiveAddress_eq_ok_iff.mpr means, dif_pos address.isLt⟩

theorem Means.isPlace (means : machine.Means operand address) : operand.mode.isPlace = true := by
  cases means <;> rfl

theorem Means.unique (means : machine.Means operand address)
    (other : machine.Means operand number) : address = number :=
  Except.ok.inj ((effectiveAddress_eq_ok_iff.mpr means).symm.trans
    (effectiveAddress_eq_ok_iff.mpr other))

theorem Means.pointer_inside {pointer : UInt16}
    (means : machine.Means (.indirect (.absolute pointer)) address) :
    pointer.toNat < memorySize ∧ pointer.toNat + 1 < memorySize := by
  have inside : ∀ {address byte}, machine.memory.read? address = some byte →
      address < memorySize := by
    intro address byte read
    by_contra outside
    rw [(Memory.read?_eq_none_iff _ _).mpr (Nat.le_of_not_lt outside)] at read
    cases read
  cases means with
  | indirect first second => exact ⟨inside first, inside second⟩

/-- An operand with an address that is not found has a pointer that memory lacks. -/
theorem pointer_outside_of_effectiveAddress (has : operand.HasAddress)
    (failed : machine.effectiveAddress operand = .error fault) :
    ∃ pointer : UInt16, operand = .indirect (.absolute pointer) ∧
      fault = .outOfBounds machine.pc pointer.toNat ∧
      ¬ (pointer.toNat < memorySize ∧ pointer.toNat + 1 < memorySize) := by
  obtain ⟨names, plain⟩ := has
  cases operand with
  | indirect pointer =>
    cases pointer with
    | label name => cases plain
    | absolute pointer =>
      rw [effectiveAddress] at failed
      split at failed
      · cases failed
      · next none =>
        cases failed
        exact ⟨pointer, rfl, rfl, Memory.readHalf?_eq_none_iff.mp none⟩
  | immediate value | register register | label name => cases names
  | _ => cases failed

/-- Memory lacks the address that an operand means, or one of the two bytes of the pointer to it. -/
def Misses (machine : Machine σ) (operand : Operand) : Prop :=
  (∃ address, machine.Means operand address ∧ 4096 ≤ address) ∨
    ∃ pointer : UInt16, operand = .indirect (.absolute pointer) ∧
      ¬ (pointer.toNat < 4096 ∧ pointer.toNat + 1 < 4096)

theorem not_misses_of_means (means : machine.Means operand address)
    (inside : address < memorySize) : ¬ machine.Misses operand := by
  rintro (⟨other, meansToo, outside⟩ | ⟨pointer, rfl, outside⟩)
  · cases means.unique meansToo
    exact Nat.not_lt.mpr outside inside
  · exact outside means.pointer_inside

/-- An operand with an address has a place at the address that it means, unless it misses memory. -/
theorem place_cases (has : operand.HasAddress) (machine : Machine σ) :
    (machine.Misses operand ∧
      ∃ address, machine.place operand = .error (.outOfBounds machine.pc address)) ∨
    (¬ machine.Misses operand ∧ ∃ address : Fin memorySize,
      machine.Means operand address.val ∧ machine.place operand = .ok address) := by
  have placed : machine.place operand = machine.effectiveAddress operand >>= fun address =>
    if inside : address < memorySize then pure ⟨address, inside⟩
    else throw (.outOfBounds machine.pc address) := rfl
  cases found : machine.effectiveAddress operand with
  | error fault =>
    obtain ⟨pointer, rfl, rfl, outside⟩ := pointer_outside_of_effectiveAddress has found
    rw [placed, found]
    exact .inl ⟨.inr ⟨pointer, rfl, outside⟩, _, rfl⟩
  | ok address =>
    have means := effectiveAddress_eq_ok_iff.mp found
    rw [placed, found]
    by_cases inside : address < memorySize
    · exact .inr ⟨not_misses_of_means means inside, ⟨address, inside⟩, means, dif_pos inside⟩
    · exact .inl ⟨.inl ⟨address, means, Nat.le_of_not_lt inside⟩, address, dif_neg inside⟩

end Machine

/-- The opcode works on numbers, which it takes without memory. -/
def Opcode.takesNumbers : Opcode → Bool
  | compare => true
  | alu _ => true
  | _ => false

theorem Table.literal_standard : ∀ form ∈ standard.forms, form.opcode.takesNumbers = true →
    ∀ set ∈ form.operands, ∀ mode ∈ Mode.all, mode ≠ .label → set.admits mode = true →
      mode = .immediate ∨ mode = .register := by
  decide

namespace Machine

variable {σ : Type} {machine : Machine σ} {instruction : Instruction}

theorem Executes.handled (executes : machine.Executes instruction)
    (standard : machine.table = Table.standard) : instruction.Handled := by
  obtain ⟨-, word, -, decoded⟩ := executes
  exact handled_of_decode (standard ▸ Table.handled_standard) decoded

theorem Executes.exists_names (executes : machine.Executes instruction)
    (standard : machine.table = Table.standard)
    (numbers : instruction.opcode.takesNumbers = true) :
    ∃ register source number, instruction.operands = [.register register, source] ∧
      machine.Names source number := by
  have serves := (executes.handled standard).serves
  obtain ⟨-, word, -, decoded⟩ := executes
  obtain ⟨form, tag, fields, last, found, -, named, -, -, -⟩ := reads_of_decode (standard ▸ decoded)
  have listed := List.mem_of_find?_eq_some found
  have literal : ∀ operand ∈ instruction.operands, operand.IsLiteral := by
    intro operand member
    rw [Instruction.modes, List.forall₂_map_right_iff] at named
    obtain ⟨set, inForm, decodes⟩ := exists_of_mem_forall₂ named member
    obtain ⟨admitted, plain, -⟩ := ModeSet.decoded?_eq_some_iff.mp decodes
    rw [← Table.opcode_of_byOpcode? found] at numbers
    exact Table.literal_standard form listed numbers set inForm operand.mode operand.mode.mem_all
      plain admitted
  obtain ⟨opcode, operands⟩ := instruction
  cases opcode with
  | compare | alu op =>
    obtain ⟨register, source, rfl, -⟩ := eq_pair_of_serves serves
    obtain ⟨number, names⟩ := Machine.exists_names (literal source (by simp)) machine
    exact ⟨register, source, number, rfl, names⟩
  | _ => cases numbers

end Machine

end Tetrad
