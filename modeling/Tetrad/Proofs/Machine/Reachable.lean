import Tetrad.Proofs.Machine.Status
import Tetrad.Proofs.Machine.Stepping

/-!
# What every machine keeps

A machine is started, and then it is loaded and stepped in any order (`Machine.after`). One call
keeps where the program lies, where the program counter may be, the zero register and the form of
the flags (`Steady.call`), and so does any sequence of calls. What this says of the machine is
`Machine.Sound`.
-/

namespace Tetrad

inductive Call where
  | load (rom : List UInt8)
  | step

namespace Machine

variable {σ : Type} {machine : Machine σ}

/-- The machine after a call; a refused load leaves it as it was. -/
def call [Sink σ] (machine : Machine σ) : Call → Machine σ
  | .load rom =>
    match machine.load rom with
    | .ok loaded => loaded
    | .error _ => machine
  | .step => machine.step.1

/-- The machine after a sequence of calls. -/
def after [Sink σ] (machine : Machine σ) (calls : List Call) : Machine σ := calls.foldl call machine

/-- The program lies behind the load address and inside memory, the program counter is not past the
end of memory, the zero register holds zero, and the flags tell of a comparison and a status. -/
structure Steady (machine : Machine σ) : Prop where
  romStart : loadAddress.toNat ≤ machine.romEnd
  romFits : machine.romEnd ≤ memorySize
  pcFits : machine.pc.toNat ≤ memorySize
  zero : machine.registers.get .zero = 0
  flags : ∃ ordering status, machine.flags = .of ordering status

theorem steady_start (table : Table) (out : σ) : (start table out).Steady where
  romStart := Nat.le_refl _
  romFits := (by decide : loadAddress.toNat ≤ memorySize)
  pcFits := (by decide : loadAddress.toNat ≤ memorySize)
  zero := (by decide : Registers.blank.get .zero = 0)
  flags := ⟨.gt, .exact, Flags.blank_eq_of⟩

theorem steady_of_load {rom : List UInt8} {loaded : Machine σ}
    (fits : machine.load rom = .ok loaded) : loaded.Steady := by
  obtain ⟨fits, rfl⟩ := load_eq_ok_iff.mp fits
  have fresh := steady_start machine.table machine.out
  refine ⟨Nat.le_add_right _ _, ?_, fresh.pcFits, fresh.zero, fresh.flags⟩
  have room := loadAddress_add_romCapacity
  dsimp only
  omega

theorem get_zero_set (registers : Registers) (target : Register) (value : UInt8) :
    (registers.set target value).get .zero = registers.get .zero := by
  rw [Registers.get_set, if_neg]
  rintro ⟨rfl, nonzero⟩
  exact nonzero rfl

theorem advance_pc (inside : machine.pc.toNat ≤ memorySize) :
    machine.advance.pc.toNat = machine.pc.toNat + 4 := by
  have inside : machine.pc.toNat ≤ 4096 := inside
  show (machine.pc + 4).toNat = machine.pc.toNat + 4
  rw [UInt16.toNat_add]
  exact Nat.mod_eq_of_lt (by show machine.pc.toNat + 4 < 65536; omega)

theorem toNat_place (address : Fin memorySize) :
    (UInt16.ofNat address.val).toNat = address.val := by
  have small : address.val < 4096 := address.isLt
  exact UInt16.toNat_ofNat_of_lt' (Nat.lt_trans small (by decide))

/-- An instruction inside the program keeps the invariant: it goes on to the next word at most four
bytes further, or jumps to a place in memory. -/
theorem Steady.perform [Sink σ] (steady : machine.Steady)
    (fits : machine.pc.toNat + 4 ≤ machine.romEnd) (effect : Effect) :
    (machine.perform effect).1.Steady := by
  obtain ⟨romStart, romFits, pcFits, zero, ordering, status, flags⟩ := steady
  have pc : (machine.pc + 4).toNat ≤ memorySize := by
    rw [show (machine.pc + 4).toNat = machine.pc.toNat + 4 from advance_pc pcFits]
    omega
  have goes : machine.advance.Steady := ⟨romStart, romFits, pc, zero, ordering, status, flags⟩
  cases effect with
  | halt => exact ⟨romStart, romFits, pcFits, zero, ordering, status, flags⟩
  | assign target value =>
    exact { goes with zero := (get_zero_set _ _ _).trans zero }
  | store address value => exact { goes with }
  | compare left right =>
    refine { goes with zero := (get_zero_set _ _ _).trans zero, flags := ?_ }
    exact ⟨_, status, (congrArg (Flags.compare · _) flags).trans (Flags.compare_of _ _ _)⟩
  | compute target result =>
    refine { goes with zero := ?_, flags := ?_ }
    · cases result with
      | none => exact zero
      | some value => exact (get_zero_set _ _ _).trans zero
    · exact ⟨ordering, _, (congrArg (Flags.record · _) flags).trans (Flags.record_of _ _ _)⟩
  | print value =>
    rw [perform_print]
    split
    · exact { goes with }
    · exact ⟨romStart, romFits, pcFits, zero, ordering, status, flags⟩
  | jump target =>
    have landed := toNat_place target
    have inside := Nat.le_of_lt target.isLt
    exact { goes with pcFits := landed.symm ▸ inside }
  | skip => exact goes

theorem Executes.inside {instruction : Instruction} (executes : machine.Executes instruction) :
    loadAddress.toNat ≤ machine.pc.toNat ∧ machine.pc.toNat + 4 ≤ machine.romEnd := by
  obtain ⟨-, word, fetched, -⟩ := executes
  obtain ⟨start, fits, -⟩ := fetch_eq_ok_iff.mp fetched
  exact ⟨start, fits⟩

theorem Steady.step [Sink σ] (steady : machine.Steady) : machine.step.1.Steady := by
  rcases step_cases machine with ⟨-, step⟩ | ⟨-, fault, -, step⟩ | ⟨-, -, step⟩ |
    ⟨instruction, fault, -, -, step⟩ | ⟨instruction, effect, executes, -, step⟩
  · rw [step]
    exact steady
  · rw [step]
    exact steady
  · rw [step]
    exact { steady with }
  · rw [step]
    exact { steady with }
  · have counted : machine.counted.Steady := { steady with }
    rw [step]
    exact counted.perform executes.inside.2 effect

theorem Steady.call [Sink σ] (steady : machine.Steady) (call : Call) :
    (machine.call call).Steady := by
  cases call with
  | step => exact steady.step
  | load rom =>
    cases loads : machine.load rom with
    | ok loaded =>
      simp only [Machine.call, loads]
      exact steady_of_load loads
    | error fault =>
      simp only [Machine.call, loads]
      exact steady

theorem Steady.after [Sink σ] (steady : machine.Steady) (calls : List Call) :
    (machine.after calls).Steady := by
  induction calls generalizing machine with
  | nil => exact steady
  | cons call rest ih => exact ih (steady.call call)

/-- What holds of a machine at any time: its memory has just the addresses below 4096, the program
lies between the load address and the end of memory, and the program counter is not past that end,
so that it advances without wrapping around. The zero register holds zero, and the flags exclude
what no comparison and no computation gives. What is executed lies wholly inside the program. -/
structure Sound (machine : Machine σ) : Prop where
  memory : ∀ address, (machine.memory.read? address).isSome ↔ address < 4096
  romStart : 0x200 ≤ machine.romEnd
  romFits : machine.romEnd ≤ 4096
  pcFits : machine.pc.toNat ≤ 4096
  advances : machine.advance.pc.toNat = machine.pc.toNat + 4
  zero : machine.registers.get .zero = 0
  flags : machine.flags.Sound
  executes : ∀ instruction, machine.Executes instruction →
    0x200 ≤ machine.pc.toNat ∧ machine.pc.toNat + 4 ≤ machine.romEnd

theorem Steady.sound (steady : machine.Steady) : machine.Sound := by
  obtain ⟨romStart, romFits, pcFits, zero, ordering, status, flags⟩ := steady
  refine ⟨fun address => ?_, romStart, romFits, pcFits, advance_pc pcFits, zero, ?_,
    fun instruction executes => executes.inside⟩
  · rw [← not_iff_not, Bool.not_eq_true, Option.isSome_eq_false_iff, Option.isNone_iff_eq_none,
      Memory.read?_eq_none_iff, Nat.not_lt]
    rfl
  · rw [flags]
    exact Flags.sound_of ordering status

/-- Whatever is loaded into a machine, with or without success, and however often it is stepped in
between, it is sound. -/
theorem sound_after [Sink σ] (table : Table) (out : σ) (calls : List Call) :
    ((start table out).after calls).Sound :=
  ((steady_start table out).after calls).sound

end Machine

end Tetrad
