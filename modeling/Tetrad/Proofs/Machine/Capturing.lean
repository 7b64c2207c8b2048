import Tetrad.CommandLine.Response
import Tetrad.Proofs.Machine.Handlers
import Tetrad.Proofs.Machine.Loading
import Tetrad.Proofs.Machine.Repeating

/-!
# Runs of whole programs

A harness runs a program on a fresh machine as delivered and captures what it prints. It reports
what the machine comes to (`Machine.Reported`), unless this takes more steps than it allows. What is
captured is always text, as every write keeps it so (`Buffer.keeps_holdsText`). The command line runs
a program without a bound (`Request.runImage_eq_success_iff`).
-/

namespace Tetrad

/-- The bytes of a buffer are those of a text. -/
def Buffer.HoldsText (buffer : Buffer) : Prop := ∃ text : String, buffer.bytes = text.toUTF8

theorem Buffer.keeps_holdsText : Sink.Keeps Buffer.HoldsText := by
  rintro out text ⟨held, bytes⟩
  refine ⟨held ++ text, ?_⟩
  show out.bytes ++ text.toUTF8 = (held ++ text).toByteArray
  rw [bytes, String.toByteArray_append]
  rfl

theorem Buffer.holdsText_empty : Buffer.empty.HoldsText := ⟨"", rfl⟩

namespace Machine

variable {machine last loaded : Machine Buffer} {count : Nat} {outcome : Outcome}

theorem Ends.out {σ : Type} [Sink σ] {machine last : Machine σ} {property : σ → Prop}
    (keeps : Sink.Keeps property) (ends : machine.Ends count last outcome)
    (holds : property machine.out) : property last.out := by
  rw [ends.eq_stepped]
  exact keeps.stepped holds count

/-- What a machine shows is all there if its output is text. -/
theorem execution_eq {output : String} (bytes : machine.out.bytes = output.toUTF8) :
    machine.execution =
      .ok ⟨output, machine.registers, machine.flags, machine.pc, machine.steps⟩ := by
  have read : String.fromUTF8? machine.out.bytes = some output := by
    rw [bytes]
    exact dif_pos output.isValidUTF8
  rw [execution, read]

/-- A result tells what a loaded machine comes to. If the machine halts within the allowed steps, it
shows the machine that a run without a bound leaves, with all that it printed. If it fails within
them, the result is its fault. Otherwise the program is given up. A run without a bound leaves the
machine as it ends, and is unfinished if it never does. -/
structure Reported (loaded : Machine Buffer) (result : Except RunError Execution) : Prop where
  halts : ∀ count last, loaded.Ends count last .halted → count ≤ 100000 →
    loaded.run = (last, .halted) ∧ ∃ output : String, last.out.bytes = output.toUTF8 ∧
      result = .ok ⟨output, last.registers, last.flags, last.pc, last.steps⟩
  fails : ∀ count last fault, loaded.Ends count last (.failed fault) → count ≤ 100000 →
    loaded.run = (last, .failed fault) ∧ result = .error (.fault fault)
  lasts : (∀ count last outcome, loaded.Ends count last outcome → 100000 < count) →
    result = .error (.stepLimit 100000)
  unbounded : ∀ last outcome, outcome ≠ .unfinished →
    (loaded.run = (last, outcome) ↔ ∃ count, loaded.Ends count last outcome)

variable {rom : List UInt8} {fault : Fault}

theorem reported_of_load (loads : (start Table.standard Buffer.empty).load rom = .ok loaded) :
    loaded.Reported (runRom rom) := by
  obtain ⟨-, same⟩ := load_eq_ok_iff.mp loads
  have fresh : loaded.steps = 0 := by rw [same]; rfl
  have empty : loaded.out.HoldsText := by rw [same]; exact Buffer.holdsText_empty
  have bound : 100000 ≤ stateCount := stepLimit_le_stateCount
  have limit : stepLimit = 100000 := rfl
  refine ⟨?_, ?_, ?_, fun last outcome => run_eq_iff Sink.takes_buffer trivial⟩
  · intro count last ends within
    obtain ⟨output, bytes⟩ := ends.out Buffer.keeps_holdsText empty
    have runs : loaded.runUntil stepLimit = (last, .halted) := ends.runUntil (by omega)
    refine ⟨ends.run (by omega), output, bytes, ?_⟩
    simp only [runRom, loads, runs]
    exact execution_eq bytes
  · intro count last fault ends within
    have runs : loaded.runUntil stepLimit = (last, .failed fault) := ends.runUntil (by omega)
    refine ⟨ends.run (by omega), ?_⟩
    simp only [runRom, loads, runs]
  · intro late
    have unfinished : (loaded.runUntil stepLimit).2 = .unfinished := by
      refine runUntil_unfinished (by omega) ?_
      intro count last outcome ends
      have := late count last outcome ends
      omega
    obtain ⟨last, runs⟩ : ∃ last, loaded.runUntil stepLimit = (last, .unfinished) :=
      ⟨_, Prod.ext rfl unfinished⟩
    simp only [runRom, loads, runs]
    rw [limit]

/-- A machine as delivered does not end in an internal fault. -/
theorem Ends.not_internal {σ : Type} [Sink σ] {machine last : Machine σ}
    (standard : machine.table = Table.standard)
    (ends : machine.Ends count last outcome) (failed : outcome = .failed fault) :
    ¬ fault.Internal := by
  induction ends with
  | halt => cases failed
  | fail step =>
    cases failed
    exact not_internal_of_step_handled (standard ▸ Table.handled_standard) step
  | next step _ ih =>
    have framed := (step_frame _).1.trans standard
    rw [step] at framed
    exact ih framed failed

end Machine

/-- An error for which no program that is run is to blame. -/
def RunError.Internal : RunError → Prop
  | assembly error => ∃ mnemonic reason, error.cause = .unencodable mnemonic reason
  | fault reason => reason.Internal
  | stepLimit _ => True
  | notText => True

/-- The run of a program reports that it is too large to be loaded, or what the loaded machine comes
to, and no other internal error than that the program is given up. -/
theorem runRom_reports (rom : List UInt8) :
    (∀ fault, (Machine.start Table.standard Buffer.empty).load rom = .error fault →
      fault = .romTooLarge rom.length ∧ runRom rom = .error (.fault fault)) ∧
    (∀ loaded, (Machine.start Table.standard Buffer.empty).load rom = .ok loaded →
      loaded.Reported (runRom rom)) ∧
    ∀ error, runRom rom = .error error → error.Internal → error = .stepLimit 100000 := by
  have tooLarge : ∀ fault, (Machine.start Table.standard Buffer.empty).load rom = .error fault →
      fault = .romTooLarge rom.length ∧ runRom rom = .error (.fault fault) := by
    intro fault failed
    refine ⟨(Machine.load_eq_error_iff.mp failed).2, ?_⟩
    rw [runRom, failed]
  refine ⟨tooLarge, fun loaded => Machine.reported_of_load, ?_⟩
  intro error reported internal
  cases loads : (Machine.start Table.standard Buffer.empty).load rom with
  | error fault =>
    obtain ⟨rfl, result⟩ := tooLarge fault loads
    cases result.symm.trans reported
    cases internal
  | ok loaded =>
    have reports := Machine.reported_of_load loads
    by_cases early : ∃ count last outcome, loaded.Ends count last outcome ∧ count ≤ 100000
    · obtain ⟨count, last, outcome, ends, within⟩ := early
      cases outcome with
      | halted =>
        obtain ⟨-, output, -, result⟩ := reports.halts count last ends within
        cases result.symm.trans reported
      | failed fault =>
        have result := (reports.fails count last fault ends within).2
        cases result.symm.trans reported
        have standard : loaded.table = Table.standard := by
          obtain ⟨-, same⟩ := Machine.load_eq_ok_iff.mp loads
          rw [same]
          rfl
        exact absurd internal (ends.not_internal standard rfl)
      | unfinished => exact absurd rfl ends.finished
    · have result := reports.lasts fun count last outcome ends =>
        Nat.lt_of_not_le fun within => early ⟨count, last, outcome, ends, within⟩
      cases result.symm.trans reported
      rfl

namespace Machine

theorem step_loop {machine : Machine Buffer}
    (carries : machine.Carries Table.standard [0x3C, 2, 0, 0])
    (stands : machine.Stands [0x3C, 2, 0, 0] 0) :
    ∃ next, machine.step = (next, .ok .running) ∧
      next.Carries Table.standard [0x3C, 2, 0, 0] ∧ next.Stands [0x3C, 2, 0, 0] 0 := by
  have executes : machine.Executes ⟨.jump .always, [.direct 0x200]⟩ := by
    refine ⟨stands.running, 0x3C020000, carries.fetch_eq stands rfl, ?_⟩
    rw [carries.table]
    rfl
  have planned : machine.plan ⟨.jump .always, [.direct 0x200]⟩ = .ok (.jump ⟨0x200, by decide⟩) :=
    rfl
  exact ⟨_, executes.step_of_plan planned, ⟨carries.table, carries.romEnd⟩, stands.running,
    stands.holds, rfl⟩

/-- A print of register 1 and a halt. -/
def printThenHalt : List UInt8 := [0x19, 0x10, 0, 0, 0, 0, 0, 0]

theorem exists_ends_print (loads : (start Table.standard Buffer.empty).load printThenHalt =
      .ok loaded) :
    ∃ last, loaded.Ends 2 last .halted ∧ last.out.bytes = "0\n".toUTF8 ∧
      last.registers = Registers.blank ∧ last.flags = Flags.blank ∧ last.pc = 0x204 ∧
      last.steps = 2 := by
  have carries := carries_of_load loads
  have stands := stands_of_load loads
  have prints : loaded.Executes ⟨.print, [.register ⟨1⟩]⟩ := by
    refine ⟨stands.running, 0x19100000, carries.fetch_eq stands rfl, ?_⟩
    rw [carries.table]
    rfl
  have goes := carries.step
  obtain ⟨-, rfl⟩ := load_eq_ok_iff.mp loads
  obtain ⟨next, step, standsNext, same⟩ : ∃ next, step _ = (next, .ok .running) ∧
      next.Stands printThenHalt 1 ∧ next = _ :=
    ⟨_, prints.step_eq, ⟨rfl, stands.holds, rfl⟩, rfl⟩
  rw [step] at goes
  have halts : next.Executes ⟨.halt, []⟩ := by
    refine ⟨standsNext.running, 0, goes.fetch_eq standsNext rfl, ?_⟩
    rw [goes.table]
    rfl
  refine ⟨_, .next step (.halt halts.step_eq), ?_⟩
  subst same
  exact ⟨rfl, rfl, rfl, rfl, rfl⟩

end Machine

theorem runRom_reports_each :
    runRom Machine.printThenHalt =
      .ok ⟨"0\n", Registers.blank, Flags.blank, 0x204, 2⟩ ∧
    runRom [0x3C, 2, 0, 0] = .error (.stepLimit 100000) ∧
    runRom (List.replicate 3585 0) = .error (.fault (.romTooLarge 3585)) := by
  refine ⟨?_, ?_, ?_⟩
  · obtain ⟨-, reports, -⟩ := runRom_reports Machine.printThenHalt
    have fits : Machine.printThenHalt.length ≤ romCapacity := by decide
    obtain ⟨loaded, loads⟩ := Machine.exists_load fits (Machine.start Table.standard Buffer.empty)
    obtain ⟨last, ends, printed, registers, flags, pc, steps⟩ := Machine.exists_ends_print loads
    obtain ⟨-, output, bytes, result⟩ := (reports _ loads).halts 2 last ends (by decide)
    have same : output = "0\n" := String.toByteArray_inj.mp (bytes.symm.trans printed)
    rw [result, same, registers, flags, pc, steps]
  · obtain ⟨-, reports, -⟩ := runRom_reports [0x3C, 2, 0, 0]
    have fits : [(0x3C : UInt8), 2, 0, 0].length ≤ romCapacity := by decide
    obtain ⟨loaded, loads⟩ := Machine.exists_load fits (Machine.start Table.standard Buffer.empty)
    refine (reports _ loads).lasts fun count last outcome ends => ?_
    exact absurd ends (Machine.not_ends_of_invariant (fun _ both => Machine.step_loop both.1 both.2)
      ⟨Machine.carries_of_load loads, Machine.stands_of_load loads⟩)
  · obtain ⟨refused, -, -⟩ := runRom_reports (List.replicate 3585 0)
    have large : romCapacity < (List.replicate 3585 (0 : UInt8)).length := by
      rw [List.length_replicate]
      decide
    obtain ⟨-, result⟩ := refused _ (Machine.load_eq_error_iff.mpr ⟨large, rfl⟩)
    rw [result, List.length_replicate]

namespace Request

theorem success_ne_failure (printed stdout attempt cause : String) :
    Reply.success printed ≠ Reply.failure stdout attempt cause :=
  fun same => absurd (congrArg Reply.code same) Nat.zero_ne_one

/-- The command line succeeds just if the loaded machine halts, however late, and prints what the
machine printed. -/
theorem runImage_eq_success_iff {rom : List UInt8} {printed : String} :
    runImage rom = .success printed ↔
      ∃ loaded count last, (Machine.start Table.standard Transcript.empty).load rom = .ok loaded ∧
        loaded.Ends count last .halted ∧ last.out.text = printed := by
  cases loads : (Machine.start Table.standard Transcript.empty).load rom with
  | error fault =>
    have refused : runImage rom = .failure "" "Failed to load ROM" fault.message := by
      simp only [runImage, loads]
    rw [refused]
    refine iff_of_false (success_ne_failure _ _ _ _).symm ?_
    rintro ⟨loaded, count, last, other, -⟩
    cases other
  | ok loaded =>
    have unlimited : loaded.out.lineLimit = none := by
      obtain ⟨-, same⟩ := Machine.load_eq_ok_iff.mp loads
      rw [same]
      rfl
    have halts : ∀ last, loaded.run = (last, .halted) ↔ ∃ count, loaded.Ends count last .halted :=
      fun last => Machine.run_eq_iff Sink.takes_transcript unlimited nofun
    constructor
    · intro reply
      cases runs : loaded.run with
      | mk last outcome =>
        simp only [runImage, loads, runs] at reply
        cases outcome with
        | halted =>
          obtain ⟨count, ends⟩ := (halts last).mp runs
          exact ⟨loaded, count, last, rfl, ends, congrArg Reply.stdout reply⟩
        | failed fault => exact absurd reply.symm (success_ne_failure _ _ _ _)
        | unfinished => exact absurd reply.symm (success_ne_failure _ _ _ _)
    · rintro ⟨_, count, last, same, ends, rfl⟩
      cases same
      have runs := (halts last).mpr ⟨count, ends⟩
      simp only [runImage, loads, runs]

end Request

end Tetrad
