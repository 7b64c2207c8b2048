import Tetrad.Proofs.Machine.Addressing

/-!
# Which address a fault names

A step that fails as out of bounds names the address that it wanted, or the first of the two bytes
of the pointer to it (`Machine.Blames`). Memory lacks the named address or at least the byte behind
it (`Machine.blames_of_step_error`). The two differ for a pointer that starts in the last byte of
memory: the fault names this byte, which is there (`Machine.inside_of_step_pointsLast`).
-/

namespace Tetrad

/-- The opcode loads, stores or jumps. -/
def Opcode.usesMemory : Opcode → Bool
  | load => true
  | store => true
  | jump _ => true
  | _ => false

/-- Only a load, a store and a jump have an operand that names a place. -/
theorem Table.usesMemory_standard : ∀ form ∈ standard.forms, ∀ set ∈ form.operands,
    ∀ mode ∈ Mode.all, mode ≠ .label → set.admits mode = true → mode.isPlace = true →
      form.opcode.usesMemory = true := by
  decide

theorem Memory.read?_ofBytes_of_le {start address : Nat} {data : List UInt8}
    (behind : start + data.length ≤ address) (inside : address < memorySize) :
    (ofBytes start data).read? address = some 0 := by
  have past : data[address - start]? = none := List.getElem?_eq_none (by omega)
  simp [read?, ofBytes, inside, past]

namespace Machine

variable {σ : Type} {machine : Machine σ} {operand : Operand} {instruction : Instruction}
  {fault : Fault} {pc : UInt16} {address : Nat}

/-- The address that is named where an operand has no place: the one that it means, which memory
lacks, or that of its pointer, of which memory lacks a byte. -/
inductive Blames (machine : Machine σ) : Operand → Nat → Prop
  | target {operand : Operand} {address : Nat} (means : machine.Means operand address)
      (outside : 4096 ≤ address) : Blames machine operand address
  | pointer {pointer : UInt16} (outside : 4096 ≤ pointer.toNat + 1) :
      Blames machine (.indirect (.absolute pointer)) pointer.toNat

theorem Blames.isPlace (blames : machine.Blames operand address) :
    operand.mode.isPlace = true := by
  cases blames with
  | target means outside => exact means.isPlace
  | pointer outside => rfl

/-- The byte behind the named address is missing in any case. -/
theorem Blames.outside (blames : machine.Blames operand address) : 4096 ≤ address + 1 := by
  cases blames with
  | target means outside => exact Nat.le_succ_of_le outside
  | pointer outside => exact outside

/-- The named address is missing itself, but for a pointer in the last byte of memory. -/
theorem Blames.outside_iff (blames : machine.Blames operand address) :
    4096 ≤ address ↔ operand ≠ .indirect (.absolute 0xFFF) := by
  cases blames with
  | target means outside =>
    refine iff_of_true outside ?_
    rintro rfl
    exact absurd means.pointer_inside.2 (by decide)
  | @pointer pointer outside =>
    have last : pointer.toNat = 4095 ↔ pointer = 0xFFF := UInt16.toNat_inj (b := 0xFFF)
    simp only [ne_eq, Operand.indirect.injEq, Address.absolute.injEq, ← last]
    omega

theorem effectiveAddress_eq_outOfBounds_iff :
    machine.effectiveAddress operand = .error (.outOfBounds pc address) ↔
      pc = machine.pc ∧ ∃ pointer : UInt16, operand = .indirect (.absolute pointer) ∧
        address = pointer.toNat ∧ 4096 ≤ pointer.toNat + 1 := by
  constructor
  · intro failed
    cases operand with
    | indirect pointer =>
      cases pointer with
      | label name => cases failed
      | absolute pointer =>
        rw [effectiveAddress] at failed
        split at failed
        · cases failed
        · next none =>
          cases failed
          have outside : ¬ (pointer.toNat < 4096 ∧ pointer.toNat + 1 < 4096) :=
            Memory.readHalf?_eq_none_iff.mp none
          exact ⟨rfl, pointer, rfl, rfl, by omega⟩
    | _ => cases failed
  · rintro ⟨rfl, pointer, rfl, rfl, outside⟩
    have none : machine.memory.readHalf? pointer.toNat = none :=
      Memory.readHalf?_eq_none_iff.mpr fun inside => Nat.not_lt.mpr outside inside.2
    rw [effectiveAddress, none]

/-- A place is out of bounds at the program counter, and for the address to blame. -/
theorem place_eq_outOfBounds_iff : machine.place operand = .error (.outOfBounds pc address) ↔
    pc = machine.pc ∧ machine.Blames operand address := by
  have placed : machine.place operand = machine.effectiveAddress operand >>= fun address =>
    if inside : address < memorySize then pure ⟨address, inside⟩
    else throw (.outOfBounds machine.pc address) := rfl
  rw [placed, bind_eq_error_iff, effectiveAddress_eq_outOfBounds_iff]
  constructor
  · rintro (⟨rfl, pointer, rfl, rfl, outside⟩ | ⟨found, means, failed⟩)
    · exact ⟨rfl, .pointer outside⟩
    · split at failed
      · cases failed
      · next outside =>
        cases failed
        exact ⟨rfl, .target (effectiveAddress_eq_ok_iff.mp means) (Nat.le_of_not_lt outside)⟩
  · rintro ⟨rfl, means, outside⟩
    · exact .inr ⟨address, effectiveAddress_eq_ok_iff.mpr means, dif_neg (Nat.not_lt.mpr outside)⟩
    · next pointer outside => exact .inl ⟨rfl, pointer, rfl, rfl, outside⟩

theorem Executes.usesMemory (executes : machine.Executes instruction)
    (standard : machine.table = Table.standard) (listed : operand ∈ instruction.operands)
    (names : operand.mode.isPlace = true) : instruction.opcode.usesMemory = true := by
  obtain ⟨-, word, -, decoded⟩ := executes
  obtain ⟨form, tag, fields, last, found, -, named, -, -, -⟩ := reads_of_decode (standard ▸ decoded)
  rw [Instruction.modes, List.forall₂_map_right_iff] at named
  obtain ⟨set, inForm, decodes⟩ := exists_of_mem_forall₂ named listed
  obtain ⟨admitted, plain, -⟩ := ModeSet.decoded?_eq_some_iff.mp decodes
  rw [← Table.opcode_of_byOpcode? found]
  exact Table.usesMemory_standard form (List.mem_of_find?_eq_some found) set inForm operand.mode
    operand.mode.mem_all plain admitted names

/-- Where no plan is found for want of a place, the instruction accesses memory there. -/
theorem accesses_of_plan_error (executes : machine.Executes instruction)
    (standard : machine.table = Table.standard)
    (failed : machine.plan instruction = .error (.outOfBounds pc address)) :
    pc = machine.pc ∧ ∃ operand, machine.Accesses instruction operand ∧
      machine.Blames operand address := by
  rcases plan_eq_error failed with other | ⟨operand, listed, placeless⟩
  · cases other
  · obtain ⟨rfl, blames⟩ := place_eq_outOfBounds_iff.mp placeless
    have uses := executes.usesMemory standard listed blames.isPlace
    refine ⟨rfl, operand, ⟨listed, blames.isPlace, ?_⟩, blames⟩
    have handled := executes.handled standard
    obtain ⟨opcode, operands⟩ := instruction
    cases opcode with
    | load => exact .inl rfl
    | store => exact .inr (.inl rfl)
    | jump condition =>
      refine .inr (.inr ⟨condition, rfl, ?_⟩)
      -- A jump that is not taken has a plan, whatever its target is.
      by_contra passed
      obtain ⟨target, rfl, -⟩ := eq_singleton_of_serves handled.serves
      have planned : machine.plan ⟨.jump condition, [target]⟩ = .ok .skip := if_neg passed
      rw [planned] at failed
      cases failed
    | _ => cases uses

/-- A step that fails as out of bounds does so at its own program counter, as its instruction
accesses memory through an operand to blame. Memory lacks the byte behind the named address, and it
lacks the named address too, but for a pointer that starts in the last byte of memory. -/
theorem blames_of_step_error [Sink σ] (machine after : Machine σ) (pc : UInt16) (address : Nat)
    (standard : machine.table = Table.standard)
    (failed : machine.step = (after, .error (.outOfBounds pc address))) :
    pc = machine.pc ∧ machine.memory.read? (address + 1) = none ∧
      ∃ instruction operand, machine.Executes instruction ∧
        machine.Accesses instruction operand ∧ machine.Blames operand address ∧
        ((4096 ≤ address ∧ machine.memory.read? address = none) ↔
          operand ≠ .indirect (.absolute 0xFFF)) := by
  have planless : ∃ instruction, machine.Executes instruction ∧
      machine.plan instruction = .error (.outOfBounds pc address) := by
    rcases step_cases machine with ⟨-, step⟩ | ⟨-, fault, lost, step⟩ | ⟨-, -, step⟩ |
      ⟨instruction, fault, executes, planless, step⟩ | ⟨instruction, effect, -, -, step⟩
    · rw [step] at failed
      cases failed
    · rw [step] at failed
      cases failed
      cases stage_of_current lost
    · rw [step] at failed
      cases failed
    · rw [step] at failed
      cases failed
      exact ⟨instruction, executes, planless⟩
    · rw [step] at failed
      obtain ⟨-, reason, -, impossible, -, -⟩ := perform_eq_error failed
      cases impossible
  obtain ⟨instruction, executes, planless⟩ := planless
  obtain ⟨here, operand, accesses, blames⟩ := accesses_of_plan_error executes standard planless
  have missing (address : Nat) : machine.memory.read? address = none ↔ 4096 ≤ address :=
    Memory.read?_eq_none_iff _ _
  have behind := (missing _).mpr blames.outside
  refine ⟨here, behind, instruction, operand, executes, accesses, blames, ?_⟩
  rw [missing, and_self]
  exact blames.outside_iff

/-- A program that loads register 1 through a pointer in the last byte of memory. -/
def pointingLast : List UInt32 := [0x1510FFF0]

def pointsLast : Machine Transcript :=
  (start Table.standard Transcript.empty).after [.load (pointingLast.flatMap wordBytes)]

theorem step_pointsLast :
    pointsLast.step = (pointsLast.counted, .error (.outOfBounds 0x200 0xFFF)) := by
  have executes : pointsLast.Executes ⟨.load, [.register ⟨1⟩, .indirect (.absolute 0xFFF)]⟩ :=
    executes_of_holding pointingLast 0 (by decide) rfl rfl rfl rfl
  have placeless : pointsLast.place (.indirect (.absolute 0xFFF)) =
      .error (.outOfBounds 0x200 0xFFF) :=
    place_eq_outOfBounds_iff.mpr ⟨rfl, .pointer (by decide)⟩
  have plan : pointsLast.plan ⟨.load, [.register ⟨1⟩, .indirect (.absolute 0xFFF)]⟩ =
      (pointsLast.value (.indirect (.absolute 0xFFF))).map (.assign ⟨1⟩) := rfl
  rw [value_of_isPlace rfl, placeless] at plan
  rw [executes.step_eq, execute_eq, plan]
  rfl

set_option maxRecDepth 8000 in
/-- A pointer far behind the end of memory is missing itself, and one in the last byte is not. -/
theorem blames_of_step_error_pointers :
    (readsOutside.table = Table.standard ∧
      readsOutside.step = (readsOutside.counted, .error (.outOfBounds 0x200 0xFFFF)) ∧
      readsOutside.memory.read? 0xFFFF = none) ∧
    pointsLast.table = Table.standard ∧
      pointsLast.step = (pointsLast.counted, .error (.outOfBounds 0x200 0xFFF)) ∧
      pointsLast.Blames (.indirect (.absolute 0xFFF)) 0xFFF ∧
      pointsLast.memory.read? 0x1000 = none := by
  have far : readsOutside.step = (readsOutside.counted, .error (.outOfBounds 0x200 0xFFFF)) := rfl
  obtain ⟨-, -, instruction, operand, -, -, blames, missing⟩ :=
    blames_of_step_error readsOutside _ _ _ rfl far
  obtain ⟨-, behind, -, other, -, -, blamesToo, kept⟩ :=
    blames_of_step_error pointsLast _ _ _ rfl step_pointsLast
  have own : operand ≠ .indirect (.absolute 0xFFF) := blames.outside_iff.mp (by decide)
  obtain rfl : other = .indirect (.absolute 0xFFF) := by
    by_contra apart
    exact absurd (kept.mpr apart).1 (by decide)
  exact ⟨⟨rfl, far, (missing.mpr own).2⟩, rfl, step_pointsLast, blamesToo, behind⟩

/-- This machine has the address that its fault names. So a fault of a loaded and stepped machine
does not always name an address past the end of memory. -/
theorem inside_of_step_pointsLast :
    pointsLast.step.2 = .error (.outOfBounds 0x200 0xFFF) ∧
      pointsLast.memory.read? 0xFFF = some 0 ∧
      ¬ ∀ (calls : List Call) (pc : UInt16) (address : Nat),
        ((start Table.standard Transcript.empty).after calls).step.2 =
          .error (.outOfBounds pc address) → 4096 ≤ address := by
  have failed : pointsLast.step.2 = .error (.outOfBounds 0x200 0xFFF) :=
    congrArg Prod.snd step_pointsLast
  refine ⟨failed, ?_, fun all => ?_⟩
  · have memory : pointsLast.memory = .ofBytes 0x200 (pointingLast.flatMap wordBytes) := rfl
    rw [memory]
    exact Memory.read?_ofBytes_of_le (by decide) (by decide)
  · exact absurd (all _ _ _ failed) (by decide)

end Machine

end Tetrad
