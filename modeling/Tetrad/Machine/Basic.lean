import Tetrad.Machine.Fault
import Tetrad.Machine.Flags
import Tetrad.Machine.Memory
import Tetrad.Machine.Registers
import Tetrad.Machine.Sink
import Tetrad.Table

namespace Tetrad

inductive Activity where
  | running
  | halted
deriving DecidableEq, Repr, Inhabited

/-- A machine that prints to a sink. -/
structure Machine (σ : Type) where
  table : Table
  memory : Memory
  registers : Registers
  flags : Flags
  pc : UInt16
  romEnd : Nat
  activity : Activity
  steps : Nat
  out : σ
deriving DecidableEq, Repr

namespace Machine

variable {σ : Type}

def start (table : Table) (out : σ) : Machine σ where
  table := table
  memory := .blank
  registers := .blank
  flags := .blank
  pc := loadAddress
  romEnd := loadAddress.toNat
  activity := .running
  steps := 0
  out := out

/-- Loads a program, which must fit in memory. -/
def load (rom : List UInt8) (machine : Machine σ) : Except Fault (Machine σ) :=
  if rom.length > romCapacity then .error (.romTooLarge rom.length)
  else .ok
    { start machine.table machine.out with
      memory := .ofBytes loadAddress.toNat rom
      romEnd := loadAddress.toNat + rom.length }

theorem load_eq_ok_iff {machine loaded : Machine σ} {rom : List UInt8} :
    machine.load rom = .ok loaded ↔ rom.length ≤ romCapacity ∧
      loaded = { start machine.table machine.out with
        memory := .ofBytes loadAddress.toNat rom
        romEnd := loadAddress.toNat + rom.length } := by
  unfold load
  by_cases large : rom.length > romCapacity
  · simp [large, Nat.not_le.mpr large]
  · simp [large, Nat.le_of_not_gt large, eq_comm]

theorem load_eq_error_iff {machine : Machine σ} {rom : List UInt8} {fault : Fault} :
    machine.load rom = .error fault ↔
      romCapacity < rom.length ∧ fault = .romTooLarge rom.length := by
  unfold load
  by_cases large : rom.length > romCapacity
  · simp [large, eq_comm]
  · simp [large]

theorem exists_load {rom : List UInt8} (fits : rom.length ≤ romCapacity) (machine : Machine σ) :
    ∃ loaded, machine.load rom = .ok loaded :=
  ⟨_, load_eq_ok_iff.mpr ⟨fits, rfl⟩⟩

end Machine

end Tetrad
