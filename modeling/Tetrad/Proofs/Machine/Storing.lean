import Tetrad.Proofs.Machine.Addressing

namespace Tetrad

/-- The register that goes into the address of an operand. -/
def Operand.base? : Operand → Option Register
  | registerIndirect base => some base
  | registerRelative _ base => some base
  | indexedScaled _ _ index => some index
  | _ => none

namespace Machine

variable {σ : Type} {machine next : Machine σ} {operand : Operand} {source : Register}
  {activity : Activity} {address : Nat}

/-- The machines have the same value in the register of the operand, and the same two bytes at its
pointer. -/
structure AgreeOn (operand : Operand) (machine next : Machine σ) : Prop where
  register : ∀ base, operand.base? = some base →
    next.registers.get base = machine.registers.get base
  pointer : ∀ pointer : UInt16, operand = .indirect (.absolute pointer) →
    next.memory.read? pointer.toNat = machine.memory.read? pointer.toNat ∧
      next.memory.read? (pointer.toNat + 1) = machine.memory.read? (pointer.toNat + 1)

/-- Nothing else counts for an operand, but for an offset to the program counter. -/
theorem Means.of_agreeOn (means : machine.Means operand address)
    (agree : AgreeOn operand machine next) (fixed : operand.mode ≠ .pcRelative) :
    next.Means operand address := by
  obtain ⟨register, pointer⟩ := agree
  cases means with
  | direct address => exact .direct address
  | indirect first second =>
    obtain ⟨same, sameToo⟩ := pointer _ rfl
    exact .indirect (same.trans first) (sameToo.trans second)
  | registerIndirect base =>
    rw [← register base rfl]
    exact .registerIndirect base
  | registerRelative offset base =>
    rw [← register base rfl]
    exact .registerRelative offset base
  | indexedScaled base scale index =>
    rw [← register index rfl]
    exact .indexedScaled base scale index
  | pcRelative offset => exact absurd rfl fixed

/-- The machine after a store to an address. -/
def withStored (machine : Machine σ) (address : Fin memorySize) (value : UInt8) : Machine σ :=
  { machine.counted with memory := machine.memory.set address value }.advance

theorem read?_withStored (machine : Machine σ) (address : Fin memorySize) (value : UInt8)
    (other : Nat) : (machine.withStored address value).memory.read? other =
      if address.val = other then some value else machine.memory.read? other :=
  Memory.read?_set machine.memory address value other

/-- A store succeeds where memory has the address that its operand means, and puts the value of its
register there. -/
theorem execute_store_eq_ok_iff [Sink σ] :
    machine.execute ⟨.store, [.register source, operand]⟩ = (next, .ok activity) ↔
      activity = .running ∧ ∃ address : Fin memorySize, machine.Means operand address.val ∧
        next = machine.withStored address (machine.registers.get source) := by
  rw [execute_eq]
  constructor
  · intro stored
    split at stored
    · cases stored
    · next effect planned =>
      cases plan_eq_ok_iff.mp planned with
      | @store _ _ address placed =>
        cases stored
        exact ⟨rfl, address, means_of_place placed, rfl⟩
  · rintro ⟨rfl, address, means, rfl⟩
    rw [plan_eq_ok_iff.mpr (.store (place_eq_ok_iff.mpr means))]
    rfl

/-- A load succeeds where memory has the address that its operand means, and gives its register the
byte there. -/
theorem execute_load [Sink σ] {value : UInt8} (means : machine.Means operand address)
    (read : machine.memory.read? address = some value) (target : Register) :
    machine.execute ⟨.load, [.register target, operand]⟩ =
      ({ machine.counted with registers := machine.registers.set target value }.advance,
        .ok .running) := by
  obtain ⟨inside, rfl⟩ := Vector.getElem?_eq_some_iff.mp read
  have placed : machine.place operand = .ok ⟨address, inside⟩ := place_eq_ok_iff.mpr means
  have planned : machine.plan ⟨.load, [.register target, operand]⟩ =
      (machine.value operand).map (.assign target) := rfl
  rw [value_of_isPlace means.isPlace, placed] at planned
  rw [execute_eq, planned]
  rfl

/-- A store that succeeds through an operand, and does not write into the pointer of this operand,
changes one byte. A load through the same operand into any register but the zero register succeeds
then, and finds the value that was stored. The program counter has moved in between, so that an
operand by an offset to it means another address. -/
theorem load_of_store [Sink σ] (machine next : Machine σ) (source : Register) (operand : Operand)
    (activity : Activity) (fixed : operand.mode ≠ .pcRelative)
    (stored : machine.execute ⟨.store, [.register source, operand]⟩ = (next, .ok activity))
    (apart : ∀ pointer : UInt16, operand = .indirect (.absolute pointer) → ∀ address,
      machine.Means operand address → address ≠ pointer.toNat ∧ address ≠ pointer.toNat + 1) :
    ∃ address, machine.Means operand address ∧ address < 4096 ∧
      (∀ other, other ≠ address → next.memory.read? other = machine.memory.read? other) ∧
      ∀ target : Register, target ≠ .zero → ∃ last,
        next.execute ⟨.load, [.register target, operand]⟩ = (last, .ok .running) ∧
        last.registers.get target = machine.registers.get source ∧ last.memory = next.memory := by
  obtain ⟨-, address, means, rfl⟩ := execute_store_eq_ok_iff.mp stored
  have read := machine.read?_withStored address (machine.registers.get source)
  have kept (other : Nat) (elsewhere : other ≠ address.val) := (read other).trans
    (if_neg elsewhere.symm)
  have agree : AgreeOn operand machine
      (machine.withStored address (machine.registers.get source)) := by
    refine ⟨fun base _ => rfl, fun pointer indirect => ?_⟩
    obtain ⟨first, second⟩ := apart pointer indirect _ means
    exact ⟨kept _ first.symm, kept _ second.symm⟩
  refine ⟨address.val, means, address.isLt, kept, fun target nonzero => ?_⟩
  have found := (read address.val).trans (if_pos rfl)
  refine ⟨_, execute_load (means.of_agreeOn agree fixed) found target, ?_, rfl⟩
  show (Registers.set _ target _).get target = _
  rw [Registers.get_set, if_pos ⟨rfl, nonzero⟩]

/-- A machine with 7 in its stack pointer and a pointer to the last byte of memory. -/
def holdsSeven : Machine Transcript :=
  { storesLast with registers := storesLast.registers.set .sp 7 }

theorem load_of_store_last_byte : ∃ next last : Machine Transcript,
    holdsSeven.execute ⟨.store, [.register .sp, .indirect (.absolute 0x204)]⟩ =
      (next, .ok .running) ∧
    holdsSeven.Means (.indirect (.absolute 0x204)) 0xFFF ∧ 0xFFF ≠ 0x204 ∧ 0xFFF ≠ 0x205 ∧
    next.execute ⟨.load, [.register ⟨2⟩, .indirect (.absolute 0x204)]⟩ = (last, .ok .running) ∧
    last.registers.get ⟨2⟩ = 7 := by
  have agree : AgreeOn (.indirect (.absolute 0x204)) storesLast holdsSeven :=
    ⟨nofun, fun _ _ => ⟨rfl, rfl⟩⟩
  have means := means_storesLast.of_agreeOn agree (by decide)
  have stored : holdsSeven.execute ⟨.store, [.register .sp, .indirect (.absolute 0x204)]⟩ =
      (holdsSeven.withStored ⟨0xFFF, by decide⟩ _, .ok .running) :=
    execute_store_eq_ok_iff.mpr ⟨rfl, _, means, rfl⟩
  obtain ⟨-, -, -, -, loads⟩ := load_of_store holdsSeven _ _ _ _ (by decide) stored (by
    rintro pointer ⟨⟩ address other
    cases means.unique other
    decide)
  obtain ⟨last, loaded, value, -⟩ := loads ⟨2⟩ (by decide)
  exact ⟨_, last, stored, means, by decide, by decide, loaded, value⟩

end Machine

end Tetrad
