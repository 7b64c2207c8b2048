import Tetrad.Machine.Step
import Tetrad.Program.Assemble

/-!
# Runs: steps until the machine halts

A run with a bound may end unfinished, be it a bound on the steps that are made or on the machine's
own step count. Without one it is bounded by the number of states that memory, registers, flags and
program counter can be in, past which a running machine never halts.
-/

namespace Tetrad

inductive Outcome where
  | halted
  | failed (fault : Fault)
  | unfinished
deriving DecidableEq, Repr, Inhabited

namespace Machine

variable {σ : Type}

/-- Steps at most the given number of times. -/
def runFor [Sink σ] : Nat → Machine σ → Machine σ × Outcome
  | 0, machine => (machine, .unfinished)
  | count + 1, machine =>
    match machine.step with
    | (machine, .error fault) => (machine, .failed fault)
    | (machine, .ok .halted) => (machine, .halted)
    | (machine, .ok .running) => runFor count machine

/-- The number of states of a machine, its table, program, steps and output apart. -/
def stateCount : Nat := 1 <<< (8 * memorySize + 8 * 16 + 8 + 16)

/-- Steps until the machine halts or fails, if it ever does. -/
def run [Sink σ] (machine : Machine σ) : Machine σ × Outcome := machine.runFor (stateCount + 1)

/-- Steps until the machine halts or fails, or runs on although its step count is at the limit. -/
def runUntil [Sink σ] (limit : Nat) (machine : Machine σ) : Machine σ × Outcome :=
  match _ : machine.step with
  | (last, .error fault) => (last, .failed fault)
  | (last, .ok .halted) => (last, .halted)
  | (next, .ok .running) =>
    if limit ≤ next.steps then (next, .unfinished) else next.runUntil limit
termination_by limit - machine.steps
decreasing_by
  have counted := machine.steps_of_step_running ‹_›
  omega

end Machine

/-- Why a program was not run to its halt. -/
inductive RunError where
  | assembly (error : AssemblyError)
  | fault (fault : Fault)
  | stepLimit (limit : Nat)
  | notText
deriving DecidableEq, Repr, Inhabited

def RunError.message : RunError → String
  | .assembly error => error.message
  | .fault reason => reason.message
  | .stepLimit limit =>
    "Internal error: program still running after " ++ Numeral.decimal limit ++ " steps"
  | .notText => "Internal error: output is not UTF-8"

/-- The place in the source that an error points at. -/
def RunError.location? : RunError → Option Location
  | .assembly error => error.location?
  | .fault _ => none
  | .stepLimit _ => none
  | .notText => none

/-- What a machine shows of itself when it has halted, with all that it printed. -/
structure Execution where
  output : String
  registers : Registers
  flags : Flags
  pc : UInt16
  steps : Nat
deriving DecidableEq, Repr, Inhabited

def Execution.general? (execution : Execution) (number : Nat) : Option UInt8 :=
  (Register.general? number).map execution.registers.get

/-- What a halted machine shows, if its output is text. -/
def Machine.execution (machine : Machine Buffer) : Except RunError Execution :=
  match String.fromUTF8? machine.out.bytes with
  | none => .error .notText
  | some output => .ok ⟨output, machine.registers, machine.flags, machine.pc, machine.steps⟩

/-- The steps after which a program is given up. -/
def stepLimit : Nat := 100000

/-- The run of a program on a machine as delivered. -/
def runRom (rom : List UInt8) : Except RunError Execution :=
  match (Machine.start Table.standard Buffer.empty).load rom with
  | .error fault => .error (.fault fault)
  | .ok machine =>
    match machine.runUntil stepLimit with
    | (last, .halted) => last.execution
    | (_, .failed fault) => .error (.fault fault)
    | (_, .unfinished) => .error (.stepLimit stepLimit)

/-- The bytes of a source for the machine as delivered. -/
def romOfSource (source : String) : Except AssemblyError (List UInt8) := do
  (← Program.ofSource source).bytes

/-- The run of a source on a machine as delivered. -/
def runSource (source : String) : Except RunError Execution :=
  match romOfSource source with
  | .error error => .error (.assembly error)
  | .ok rom => runRom rom

end Tetrad
