import Tetrad.Proofs.Machine.Stepping
import Tetrad.Proofs.Word.RoundTrip

/-!
# Tables and handlers

The handler of an opcode takes operands of certain modes (`Opcode.roles`). Under a table whose forms
leave no other mode to a word (`Table.Handled`), every instruction that decodes has a handler, and
its operands have the values and places that the handler asks for. So a step never ends in an
internal fault; the table of the machine as delivered is of this kind.
-/

namespace Tetrad

/-- A step met an instruction without a handler, or an operand without an address. -/
def Fault.Internal : Fault → Prop
  | noHandler _ _ => True
  | noAddress _ => True
  | _ => False

/-- What a handler needs of an operand. -/
inductive Role where
  | register
  | value
  | place
deriving DecidableEq, Repr

/-- The modes that are of use in a role. -/
def Role.takes : Role → Mode → Bool
  | register, mode => mode == .register
  | value, mode => mode == .immediate || mode == .register || mode.isPlace
  | place, mode => mode.isPlace

/-- The roles of the operands of an opcode, in order. -/
def Opcode.roles : Opcode → List Role
  | halt => []
  | move => [.register, .value]
  | load => [.register, .value]
  | store => [.register, .place]
  | print => [.register]
  | compare => [.register, .value]
  | alu _ => [.register, .value]
  | jump _ => [.place]

/-- Every operand is of use in its role. -/
def Serves (roles : List Role) (operands : List Operand) : Prop :=
  List.Forall₂ (fun role operand => role.takes operand.mode = true) roles operands

/-- Every operand is of use in its role, and none refers to a label. -/
structure Instruction.Handled (instruction : Instruction) : Prop where
  serves : Serves instruction.opcode.roles instruction.operands
  plain : ∀ operand ∈ instruction.operands, operand.label? = none

/-- Every mode that a word can have at a position is of use there. -/
def Form.Handled (form : Form) : Prop :=
  List.Forall₂
    (fun role set => ∀ mode ∈ Mode.all, mode ≠ .label → set.admits mode = true →
      role.takes mode = true)
    form.opcode.roles form.operands

instance (form : Form) : Decidable form.Handled := by
  unfold Form.Handled
  infer_instance

/-- Every form of the table can be handled. -/
def Table.Handled (table : Table) : Prop := ∀ form ∈ table.forms, form.Handled

theorem Table.handled_standard : Table.standard.Handled := by
  unfold Table.Handled
  decide

theorem handled_of_decode {table : Table} {word : UInt32} {instruction : Instruction}
    (handled : table.Handled) (decoded : table.decode word = .ok instruction) :
    instruction.Handled := by
  obtain ⟨form, tag, fields, last, found, -, named, -, has, -⟩ := reads_of_decode decoded
  have listed := handled form (List.mem_of_find?_eq_some found)
  rw [Form.Handled, Table.opcode_of_byOpcode? found] at listed
  rw [Instruction.modes, List.forall₂_map_right_iff] at named
  refine ⟨forall₂_through listed named ?_, ?_⟩
  · intro role set operand takes decodes
    obtain ⟨admitted, plain, -⟩ := ModeSet.decoded?_eq_some_iff.mp decodes
    exact takes operand.mode operand.mode.mem_all plain admitted
  · intro operand member
    obtain ⟨own, -, owned⟩ := exists_of_mem_forall₂ has.flip member
    exact (Operand.fields?_isSome_iff operand).mp (Option.isSome_iff_exists.mpr ⟨own, owned⟩)

namespace Machine

variable {σ : Type} {machine : Machine σ} {instruction : Instruction} {operand : Operand}
  {fault : Fault}

/-- An operand with an address fails only if memory lacks the address. -/
theorem outOfBounds_of_place (names : operand.mode.isPlace = true) (plain : operand.label? = none)
    (failed : machine.place operand = .error fault) :
    ∃ address, fault = .outOfBounds machine.pc address := by
  rcases place_eq_error failed with outside | ⟨-, none⟩
  · exact outside
  · exact absurd ⟨names, plain⟩ none

theorem outOfBounds_of_value (takes : Role.value.takes operand.mode = true)
    (plain : operand.label? = none) (failed : machine.value operand = .error fault) :
    ∃ address, fault = .outOfBounds machine.pc address := by
  obtain ⟨failed, other⟩ := value_eq_error failed
  rw [Role.takes, Bool.or_eq_true, Bool.or_eq_true, beq_iff_eq, beq_iff_eq] at takes
  rcases takes with literal | names
  · exact absurd literal other
  · exact outOfBounds_of_place names plain failed

theorem eq_singleton_of_serves {role : Role} {operands : List Operand}
    (serves : Serves [role] operands) :
    ∃ operand, operands = [operand] ∧ role.takes operand.mode = true := by
  obtain ⟨operand, rest, takes, none, rfl⟩ := List.forall₂_cons_left_iff.mp serves
  cases none
  exact ⟨operand, rfl, takes⟩

theorem register_of_takes (takes : Role.register.takes operand.mode = true) :
    ∃ register, operand = .register register := by
  cases operand with
  | register r => exact ⟨r, rfl⟩
  | _ => cases takes

theorem eq_pair_of_serves {role : Role} {operands : List Operand}
    (serves : Serves [.register, role] operands) :
    ∃ register operand, operands = [.register register, operand] ∧
      role.takes operand.mode = true := by
  obtain ⟨first, rest, takesFirst, later, rfl⟩ := List.forall₂_cons_left_iff.mp serves
  obtain ⟨register, rfl⟩ := register_of_takes takesFirst
  obtain ⟨operand, rfl, takes⟩ := eq_singleton_of_serves later
  exact ⟨register, operand, rfl, takes⟩

/-- The handler of an instruction gives a plan, or fails as memory lacks an address. -/
theorem outOfBounds_of_plan (handled : instruction.Handled)
    (failed : machine.plan instruction = .error fault) :
    ∃ address, fault = .outOfBounds machine.pc address := by
  obtain ⟨opcode, operands⟩ := instruction
  obtain ⟨serves, plain⟩ := handled
  -- The roles give the number of operands and which of them are registers.
  cases opcode with
  | halt =>
    cases serves
    cases failed
  | print =>
    obtain ⟨operand, rfl, takes⟩ := eq_singleton_of_serves serves
    obtain ⟨register, rfl⟩ := register_of_takes takes
    cases failed
  | jump condition =>
    obtain ⟨target, rfl, takes⟩ := eq_singleton_of_serves serves
    by_cases taken : machine.flags.holds condition = true
    · have failed := (if_pos taken).symm.trans failed
      exact outOfBounds_of_place takes (plain target (by simp)) (map_eq_error_iff.mp failed)
    · have failed := (if_neg taken).symm.trans failed
      cases failed
  | store =>
    obtain ⟨source, destination, rfl, takes⟩ := eq_pair_of_serves serves
    have failed : (machine.place destination).map _ = .error fault := failed
    exact outOfBounds_of_place takes (plain destination (by simp)) (map_eq_error_iff.mp failed)
  | move | load =>
    obtain ⟨target, source, rfl, takes⟩ := eq_pair_of_serves serves
    have failed : (machine.value source).map _ = .error fault := failed
    exact outOfBounds_of_value takes (plain source (by simp)) (map_eq_error_iff.mp failed)
  | compare | alu op =>
    obtain ⟨target, source, rfl, takes⟩ := eq_pair_of_serves serves
    have failed : (machine.number source).map _ = .error fault := failed
    have failed := number_eq_error (map_eq_error_iff.mp failed)
    exact outOfBounds_of_value takes (plain source (by simp)) failed

theorem isAlu_of_compute {target : Register} {result : Option Int}
    (planned : machine.plan instruction = .ok (.compute target result)) :
    instruction.opcode.isAlu = true := by
  cases plan_eq_ok_iff.mp planned
  rfl

theorem not_internal_of_plan (handled : instruction.Handled)
    (failed : machine.plan instruction = .error fault) : ¬ fault.Internal := by
  obtain ⟨address, rfl⟩ := outOfBounds_of_plan handled failed
  exact id

theorem not_internal_of_stage (other : fault.stage ≠ .planning) : ¬ fault.Internal := by
  cases fault with
  | noHandler pc instruction | noAddress operand => exact absurd rfl other
  | _ => exact id

theorem not_internal_of_step_handled [Sink σ] {after : Machine σ} (handled : machine.table.Handled)
    (failed : machine.step = (after, .error fault)) : ¬ fault.Internal := by
  rcases step_cases machine with ⟨-, step⟩ | ⟨-, reason, lost, step⟩ | ⟨-, -, step⟩ |
    ⟨instruction, reason, ⟨-, word, -, decoded⟩, planless, step⟩ | ⟨-, effect, -, -, step⟩
  · rw [step] at failed
    cases failed
  · rw [step] at failed
    cases failed
    exact not_internal_of_stage (by rw [stage_of_current lost]; decide)
  · rw [step] at failed
    cases failed
  · rw [step] at failed
    cases failed
    exact not_internal_of_plan (handled_of_decode handled decoded) planless
  · rw [step] at failed
    obtain ⟨value, reason, -, rfl, -, -⟩ := perform_eq_error failed
    exact id

/-- A step of a machine as delivered never ends in an internal fault. No word of its table decodes
to an instruction without a handler or to an operand without an address where one is needed, and no
instruction but an operation computes. -/
theorem not_internal_of_step [Sink σ] (machine : Machine σ)
    (standard : machine.table = Table.standard) :
    (∀ after fault, machine.step = (after, .error fault) → ¬ fault.Internal) ∧
    ∀ word instruction, Table.standard.decode word = .ok instruction →
      (∀ fault, machine.plan instruction = .error fault → ¬ fault.Internal) ∧
      ∀ target result, machine.plan instruction = .ok (.compute target result) →
        instruction.opcode.isAlu = true := by
  have handled := Table.handled_standard
  refine ⟨fun after fault failed => ?_, fun word instruction decoded => ⟨?_, ?_⟩⟩
  · exact not_internal_of_step_handled (standard ▸ handled) failed
  · exact fun fault failed => not_internal_of_plan (handled_of_decode handled decoded) failed
  · exact fun target result planned => isAlu_of_compute planned

/-- A machine that loads register 1 through a pointer at the end of the address space. -/
def readsOutside : Machine Transcript :=
  { start Table.standard Transcript.empty with
    memory := (((Memory.blank.set ⟨loadAddress.toNat, by decide⟩ 0x15).set
      ⟨0x201, by decide⟩ 0x1F).set ⟨0x202, by decide⟩ 0xFF).set ⟨0x203, by decide⟩ 0xF0
    romEnd := 0x204 }

set_option maxRecDepth 8000 in
theorem not_internal_of_step_outside :
    readsOutside.table = Table.standard ∧
      readsOutside.step = (readsOutside.counted, .error (.outOfBounds 0x200 0xFFFF)) ∧
      ¬ (Fault.outOfBounds 0x200 0xFFFF).Internal ∧
      Table.standard.decode 0x40100050 = .ok ⟨.alu .add, [.register ⟨1⟩, .immediate 5]⟩ ∧
      readsOutside.plan ⟨.alu .add, [.register ⟨1⟩, .immediate 5]⟩ =
        .ok (.compute ⟨1⟩ (some 5)) ∧
      (Opcode.alu .add).isAlu = true := by
  have step : readsOutside.step =
      (readsOutside.counted, .error (.outOfBounds 0x200 0xFFFF)) := rfl
  have decoded : Table.standard.decode 0x40100050 =
      .ok ⟨.alu .add, [.register ⟨1⟩, .immediate 5]⟩ := rfl
  have planned : readsOutside.plan ⟨.alu .add, [.register ⟨1⟩, .immediate 5]⟩ =
      .ok (.compute ⟨1⟩ (some 5)) := rfl
  obtain ⟨failing, decoding⟩ := not_internal_of_step readsOutside rfl
  exact ⟨rfl, step, failing _ _ step, decoded, planned, (decoding _ _ decoded).2 _ _ planned⟩

end Machine

end Tetrad
