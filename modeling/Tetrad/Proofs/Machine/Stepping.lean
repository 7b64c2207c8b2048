import Mathlib.Logic.Function.Iterate
import Tetrad.Proofs.Machine.Planning

/-!
# What a step does

A step of a running machine finds an instruction at the program counter (`Machine.Executes`), an
opcode that its table does not know, or a fault. `step_cases` says what becomes of the machine in
each case, and everything else about steps is read off it. Printing goes through `Sink.writeAll`,
which stops at the first text that is refused.
-/

namespace Tetrad

/-- Writes texts one after another, up to the first that is refused. -/
def Sink.writeAll {σ : Type} [Sink σ] (out : σ) : List String → σ × Option String
  | [] => (out, none)
  | text :: rest =>
    match Sink.write out text with
    | (next, some reason) => (next, some reason)
    | (next, none) => writeAll next rest

/-- The texts that are written for a byte: its numeral and the end of the line. -/
def printed (value : UInt8) : List String := [Numeral.decimal value.toNat, "\n"]

namespace Machine

variable {σ : Type} {machine : Machine σ} {instruction : Instruction} {fault : Fault}

/-- The next step executes an instruction: the machine runs and fetches a word of it. -/
def Executes (machine : Machine σ) (instruction : Instruction) : Prop :=
  machine.activity = .running ∧
    ∃ word, machine.fetch = .ok word ∧ machine.table.decode word = .ok instruction

/-- The instruction at the program counter, or `none` if its opcode is unknown. -/
def current (machine : Machine σ) : Except Fault (Option Instruction) :=
  match machine.fetch with
  | .error fault => .error fault
  | .ok word =>
    match machine.table.decode word with
    | .ok instruction => .ok (some instruction)
    | .error (.unknownOpcode _) => .ok none
    | .error _ => .error (.malformed machine.pc word)

theorem executes_iff : machine.Executes instruction ↔
    machine.activity = .running ∧ machine.current = .ok (some instruction) := by
  refine and_congr_right fun _ => ?_
  unfold current
  cases machine.fetch with
  | error fault => simp
  | ok word =>
    cases decoded : machine.table.decode word with
    | ok found => simp [decoded]
    | error reason => cases reason <;> simp [decoded]

theorem fetch_eq_ok_iff {word : UInt32} : machine.fetch = .ok word ↔
    loadAddress.toNat ≤ machine.pc.toNat ∧ machine.pc.toNat + 4 ≤ machine.romEnd ∧
      machine.memory.readWord? machine.pc.toNat = some word := by
  have below : machine.pc < loadAddress ↔ ¬ loadAddress.toNat ≤ machine.pc.toNat := by
    rw [UInt16.lt_iff_toNat_lt, Nat.not_le]
  unfold fetch
  by_cases low : machine.pc < loadAddress
  · rw [if_pos low]
    simp [below.mp low]
  · rw [if_neg low]
    by_cases cut : machine.pc.toNat + 4 > machine.romEnd
    · rw [if_pos cut]
      simp [Nat.not_le.mpr cut]
    · rw [if_neg cut]
      have start := not_not.mp fun high => low (below.mpr high)
      have fits := Nat.le_of_not_gt cut
      cases machine.memory.readWord? machine.pc.toNat <;> simp [start, fits]

theorem stage_of_fetch (failed : machine.fetch = .error fault) : fault.stage = .fetching := by
  unfold fetch at failed
  split at failed
  · cases failed
    rfl
  · split at failed
    · cases failed
      rfl
    · split at failed
      · cases failed
      · cases failed
        rfl

theorem stage_of_current (failed : machine.current = .error fault) :
    fault.stage = .fetching := by
  unfold current at failed
  split at failed
  · next reason refused =>
    cases failed
    exact stage_of_fetch refused
  · split at failed
    · cases failed
    · cases failed
    · cases failed
      rfl

theorem print_eq [Sink σ] (machine : Machine σ) (value : UInt8) : machine.print value =
    ({ machine with out := (Sink.writeAll machine.out (printed value)).1 },
      (Sink.writeAll machine.out (printed value)).2.map .output) := by
  unfold print printed
  simp only [Sink.writeAll]
  cases Sink.write machine.out (Numeral.decimal value.toNat) with
  | mk out refused =>
    cases refused with
    | some reason => rfl
    | none =>
      dsimp only
      cases Sink.write out "\n" with
      | mk last refused => cases refused <;> rfl

/-- Printing is the one effect that can fail: the sink refuses a text of the line. -/
theorem perform_print [Sink σ] (machine : Machine σ) (value : UInt8) :
    machine.perform (.print value) =
      match Sink.writeAll machine.out (printed value) with
      | (out, none) => ({ machine with out := out }.advance, .ok .running)
      | (out, some reason) => ({ machine with out := out }, .error (.output reason)) := by
  rw [perform, print_eq]
  cases Sink.writeAll machine.out (printed value) with
  | mk out refused => cases refused <;> rfl

theorem perform_eq_error [Sink σ] {effect : Effect} {after : Machine σ}
    (failed : machine.perform effect = (after, .error fault)) :
    ∃ value reason, effect = .print value ∧ fault = .output reason ∧
      Sink.writeAll machine.out (printed value) = (after.out, some reason) ∧
      after = { machine with out := after.out } := by
  cases effect with
  | print value =>
    rw [perform_print] at failed
    split at failed
    · cases failed
    · next out reason written =>
      cases failed
      exact ⟨value, reason, rfl, rfl, written, rfl⟩
  | _ => cases failed

theorem perform_eq_halted [Sink σ] {effect : Effect}
    (halted : (machine.perform effect).2 = .ok .halted) : effect = .halt := by
  cases effect with
  | halt => rfl
  | print value =>
    rw [perform_print] at halted
    split at halted <;> cases halted
  | _ => cases halted

theorem perform_frame [Sink σ] (machine : Machine σ) (effect : Effect) :
    (machine.perform effect).1.table = machine.table ∧
      (machine.perform effect).1.romEnd = machine.romEnd := by
  cases effect with
  | print value =>
    rw [perform_print]
    split <;> exact ⟨rfl, rfl⟩
  | _ => exact ⟨rfl, rfl⟩

def counted (machine : Machine σ) : Machine σ := { machine with steps := machine.steps + 1 }

theorem execute_eq [Sink σ] (machine : Machine σ) (instruction : Instruction) :
    machine.execute instruction =
      match machine.plan instruction with
      | .error fault => (machine.counted, .error fault)
      | .ok effect => machine.counted.perform effect := rfl

theorem step_of_current [Sink σ] (running : machine.activity = .running) : machine.step =
    match machine.current with
    | .error fault => (machine, .error fault)
    | .ok none => ({ machine with activity := .halted }, .ok .halted)
    | .ok (some instruction) => machine.execute instruction := by
  unfold step current
  rw [running]
  cases machine.fetch with
  | error fault => rfl
  | ok word =>
    cases decoded : machine.table.decode word with
    | ok instruction => simp only [decoded]
    | error reason => cases reason <;> simp only [decoded]

theorem step_of_halted [Sink σ] (halted : machine.activity = .halted) :
    machine.step = (machine, .ok .halted) := by
  unfold step
  rw [halted]

theorem step_of_fetch_error [Sink σ] (running : machine.activity = .running)
    (failed : machine.fetch = .error fault) : machine.step = (machine, .error fault) := by
  have none : machine.current = .error fault := by
    rw [current, failed]
  rw [step_of_current running, none]

theorem Executes.step_eq [Sink σ] (executes : machine.Executes instruction) :
    machine.step = machine.execute instruction := by
  obtain ⟨running, found⟩ := executes_iff.mp executes
  rw [step_of_current running, found]

theorem Executes.step_of_plan [Sink σ] {effect : Effect} (executes : machine.Executes instruction)
    (planned : machine.plan instruction = .ok effect) :
    machine.step = machine.counted.perform effect := by
  rw [executes.step_eq, execute_eq, planned]

/-- A halted machine rests; a running one stops where it finds no instruction, halts at an unknown
opcode, and otherwise counts the step, whether the instruction has a plan or not. -/
theorem step_cases [Sink σ] (machine : Machine σ) :
    (machine.activity = .halted ∧ machine.step = (machine, .ok .halted)) ∨
    (machine.activity = .running ∧ ∃ fault, machine.current = .error fault ∧
      machine.step = (machine, .error fault)) ∨
    (machine.activity = .running ∧ machine.current = .ok none ∧
      machine.step = ({ machine with activity := .halted }, .ok .halted)) ∨
    (∃ instruction fault, machine.Executes instruction ∧
      machine.plan instruction = .error fault ∧ machine.step = (machine.counted, .error fault)) ∨
    (∃ instruction effect, machine.Executes instruction ∧
      machine.plan instruction = .ok effect ∧ machine.step = machine.counted.perform effect) := by
  cases activity : machine.activity with
  | halted => exact .inl ⟨rfl, step_of_halted activity⟩
  | running =>
    refine .inr ?_
    cases found : machine.current with
    | error fault => exact .inl ⟨rfl, fault, rfl, by rw [step_of_current activity, found]⟩
    | ok one =>
      refine .inr ?_
      cases one with
      | none => exact .inl ⟨rfl, rfl, by rw [step_of_current activity, found]⟩
      | some instruction =>
        refine .inr ?_
        have executes := executes_iff.mpr ⟨activity, found⟩
        cases planned : machine.plan instruction with
        | error fault =>
          refine .inl ⟨instruction, fault, executes, planned, ?_⟩
          rw [executes.step_eq, execute_eq, planned]
        | ok effect =>
          exact .inr ⟨instruction, effect, executes, planned, executes.step_of_plan planned⟩

theorem step_frame [Sink σ] (machine : Machine σ) :
    machine.step.1.table = machine.table ∧ machine.step.1.romEnd = machine.romEnd := by
  rcases step_cases machine with ⟨-, step⟩ | ⟨-, fault, -, step⟩ | ⟨-, -, step⟩ |
    ⟨instruction, fault, -, -, step⟩ | ⟨instruction, effect, -, -, step⟩
  · rw [step]; exact ⟨rfl, rfl⟩
  · rw [step]; exact ⟨rfl, rfl⟩
  · rw [step]; exact ⟨rfl, rfl⟩
  · rw [step]; exact ⟨rfl, rfl⟩
  · rw [step]; exact perform_frame machine.counted effect

/-- The machine after a number of steps, whatever they return. -/
def stepped [Sink σ] (machine : Machine σ) (count : Nat) : Machine σ :=
  (fun machine : Machine σ => machine.step.1)^[count] machine

theorem stepped_succ [Sink σ] (machine : Machine σ) (count : Nat) :
    machine.stepped (count + 1) = machine.step.1.stepped count := rfl

theorem stepped_succ_apply [Sink σ] (machine : Machine σ) (count : Nat) :
    machine.stepped (count + 1) = (machine.stepped count).step.1 :=
  Function.iterate_succ_apply' _ _ _

theorem stepped_frame [Sink σ] (machine : Machine σ) (count : Nat) :
    (machine.stepped count).table = machine.table ∧
      (machine.stepped count).romEnd = machine.romEnd := by
  induction count with
  | zero => exact ⟨rfl, rfl⟩
  | succ count ih =>
    obtain ⟨table, romEnd⟩ := (machine.stepped count).step_frame
    rw [stepped_succ_apply]
    exact ⟨table.trans ih.1, romEnd.trans ih.2⟩

end Machine

end Tetrad
