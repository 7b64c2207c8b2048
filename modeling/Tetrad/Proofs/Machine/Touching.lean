import Tetrad.Proofs.Machine.Failing
import Tetrad.Proofs.Machine.Meaning
import Tetrad.Proofs.Machine.Status
import Tetrad.Proofs.Operand.Reading

/-!
# What a step touches

An effect changes the one part of the machine that it names, and the program counter
(`memory_perform`, `get_perform`, `condition_perform`, `contains_perform`, `out_perform`,
`advances_of_perform`). So a step that succeeds touches only what its instruction names
(`Machine.Touches`, `Machine.touches_of_step`).
-/

namespace Tetrad

/-- The decimal numeral of a number, without zeros in front of it. -/
structure Numeral.Plain (text : List Char) (n : Nat) : Prop where
  denotes : Denotes 10 text n
  first : text.head? = some '0' → text = ['0']

theorem Numeral.head?_digits {n : Nat} (positive : 0 < n) : (digits 10 n).head? ≠ some '0' := by
  rw [digits]
  induction n using Nat.strongRecOn with
  | ind n ih =>
    by_cases small : n < 10
    · have all : ∀ digit < 10, 0 < digit → Nat.digitChar digit ≠ '0' := by decide
      rw [Nat.toDigits_of_lt_base small, List.head?_cons]
      exact fun zero => all n small positive (Option.some.inj zero)
    · have fewer : n / 10 < n := Nat.div_lt_self positive (by decide)
      rw [Nat.toDigits_of_base_le (by decide) (by omega),
        List.head?_append_of_ne_nil _ Nat.toDigits_ne_nil]
      exact ih _ fewer (by omega)

theorem Numeral.plain_digits (n : Nat) : Plain (digits 10 n) n := by
  refine ⟨(read?_eq_some_iff (by decide)).mp (read?_digits (by decide) (by decide) n), ?_⟩
  intro zero
  rcases Nat.eq_zero_or_pos n with rfl | positive
  · rfl
  · exact absurd zero (head?_digits positive)

theorem Sink.Appends.writeAll_of_none {σ : Type} [Sink σ] {held : σ → List Char}
    (appends : Sink.Appends held) {out next : σ} {texts : List String}
    (written : Sink.writeAll out texts = (next, none)) :
    held next = held out ++ texts.flatMap String.toList := by
  induction texts generalizing out with
  | nil =>
    cases written
    rw [List.flatMap_nil, List.append_nil]
  | cons text rest ih =>
    obtain ⟨part, -, added, whole⟩ := appends out text
    rw [Sink.writeAll] at written
    split at written
    · cases written
    · next later accepted =>
      rw [accepted] at added whole
      rw [ih written, added, whole rfl, List.flatMap_cons, List.append_assoc]

/-- The register that an effect may change. -/
def Effect.target? : Effect → Option Register
  | assign target _ => some target
  | compute target _ => some target
  | compare _ _ => some .cmp
  | _ => none

/-- The register that an instruction may change. -/
def Instruction.target? (instruction : Instruction) : Option Register :=
  match instruction.opcode, instruction.operands with
  | .move, .register target :: _ => some target
  | .load, .register target :: _ => some target
  | .alu _, .register target :: _ => some target
  | .compare, _ => some .cmp
  | _, _ => none

namespace Machine

theorem Plans.target?_eq {σ : Type} {machine : Machine σ} {instruction : Instruction}
    {effect : Effect} (plans : machine.Plans instruction effect) :
    effect.target? = instruction.target? := by
  cases plans <;> rfl

variable {σ : Type} [Sink σ] {machine next : Machine σ} {effect : Effect} {activity : Activity}
  {instruction : Instruction}

theorem memory_perform (machine : Machine σ)
    (other : ∀ address value, effect ≠ .store address value) :
    (machine.perform effect).1.memory = machine.memory := by
  cases effect with
  | store address value => exact absurd rfl (other address value)
  | print value =>
    rw [perform_print]
    split <;> rfl
  | _ => rfl

theorem target_of_get_set {registers : Registers} {target register : Register} {value : UInt8}
    (changed : (registers.set target value).get register ≠ registers.get register) :
    target = register ∧ register ≠ .zero := by
  rw [Registers.get_set] at changed
  by_cases own : target = register ∧ target ≠ .zero
  · exact ⟨own.1, own.1 ▸ own.2⟩
  · exact absurd (if_neg own) changed

/-- A register that changes is the one of the effect, and not the zero register. -/
theorem get_perform (machine : Machine σ) {register : Register}
    (changed : (machine.perform effect).1.registers.get register ≠
      machine.registers.get register) :
    effect.target? = some register ∧ register ≠ .zero := by
  cases effect with
  | assign target value =>
    obtain ⟨rfl, nonzero⟩ := target_of_get_set changed
    exact ⟨rfl, nonzero⟩
  | compare left right =>
    obtain ⟨rfl, nonzero⟩ := target_of_get_set changed
    exact ⟨rfl, nonzero⟩
  | compute target result =>
    cases result with
    | none => exact absurd rfl changed
    | some value =>
      obtain ⟨rfl, nonzero⟩ := target_of_get_set changed
      exact ⟨rfl, nonzero⟩
  | print value =>
    rw [perform_print] at changed
    split at changed <;> exact absurd rfl changed
  | _ => exact absurd rfl changed

theorem condition_perform (machine : Machine σ)
    (other : ∀ left right, effect ≠ .compare left right) :
    (machine.perform effect).1.flags.condition = machine.flags.condition := by
  cases effect with
  | compare left right => exact absurd rfl (other left right)
  | compute target result => exact machine.flags.condition_record result
  | print value =>
    rw [perform_print]
    split <;> rfl
  | _ => rfl

theorem contains_perform (machine : Machine σ)
    (other : ∀ target result, effect ≠ .compute target result) (status : Status) :
    (machine.perform effect).1.flags.contains status.bit = machine.flags.contains status.bit := by
  cases effect with
  | compute target result => exact absurd rfl (other target result)
  | compare left right => exact machine.flags.contains_compare _ status
  | print value =>
    rw [perform_print]
    split <;> rfl
  | _ => rfl

theorem out_perform (machine : Machine σ) (other : ∀ value, effect ≠ .print value) :
    (machine.perform effect).1.out = machine.out := by
  cases effect with
  | print value => exact absurd rfl (other value)
  | _ => rfl

theorem writeAll_of_perform {value : UInt8}
    (performed : machine.perform (.print value) = (next, .ok activity)) :
    Sink.writeAll machine.out (printed value) = (next.out, none) := by
  rw [perform_print] at performed
  split at performed
  · next written =>
    cases performed
    exact written
  · cases performed

/-- After every other effect than a halt and a jump the machine goes on to the next word. -/
theorem advances_of_perform (performed : machine.perform effect = (next, .ok activity))
    (stays : effect ≠ .halt) (other : ∀ target, effect ≠ .jump target) :
    next.pc = machine.pc + 4 ∧ next.activity = machine.activity ∧ activity = .running := by
  cases effect with
  | halt => exact absurd rfl stays
  | jump target => exact absurd rfl (other target)
  | print value =>
    rw [perform_print] at performed
    split at performed
    · cases performed
      exact ⟨rfl, rfl, rfl⟩
    · cases performed
  | _ =>
    cases performed
    exact ⟨rfl, rfl, rfl⟩

/-- Where a step goes on that executes an instruction. A halt stays where it is, a jump that is
taken goes to the address that its target means, and all else goes on to the next word. -/
inductive GoesOn (machine : Machine σ) : Instruction → Machine σ → Activity → Prop
  | halts {next : Machine σ} (rests : next.pc = machine.pc) (halted : next.activity = .halted) :
      GoesOn machine ⟨.halt, []⟩ next .halted
  | jumps {next : Machine σ} {condition : Condition} {target : Operand}
      (taken : machine.flags.holds condition = true) (means : machine.Means target next.pc.toNat)
      (inside : next.pc.toNat < 4096) (running : next.activity = .running) :
      GoesOn machine ⟨.jump condition, [target]⟩ next .running
  | advances {next : Machine σ} {instruction : Instruction} (other : instruction.opcode ≠ .halt)
      (passed : ∀ condition, instruction.opcode = .jump condition →
        machine.flags.holds condition = false)
      (pc : next.pc.toNat = machine.pc.toNat + 4) (running : next.activity = .running) :
      GoesOn machine instruction next .running

/-- A step that executes an instruction changes only what the instruction names. A store changes one
byte of memory, a move, a load, an operation and a comparison one register, which is not the zero
register. A comparison changes the condition code and an operation the bits of a status. A print
writes one line, the numeral of its register. -/
structure Touches (machine : Machine σ) (instruction : Instruction) (next : Machine σ)
    (activity : Activity) : Prop where
  memory : instruction.opcode ≠ .store → next.memory = machine.memory
  stored : instruction.opcode = .store → ∃ source destination address,
    instruction.operands = [.register source, destination] ∧ machine.Means destination address ∧
    address < 4096 ∧ ∀ other, next.memory.read? other =
      if other = address then some (machine.registers.get source) else machine.memory.read? other
  registers : ∀ register, next.registers.get register ≠ machine.registers.get register →
    instruction.target? = some register ∧ register ≠ .zero
  condition : instruction.opcode ≠ .compare → next.flags.condition = machine.flags.condition
  status : instruction.opcode.isAlu = false → ∀ status : Status,
    next.flags.contains status.bit = machine.flags.contains status.bit
  out : instruction.opcode ≠ .print → next.out = machine.out
  line : instruction.opcode = .print → ∃ register numeral,
    instruction.operands = [.register register] ∧
    Numeral.Plain numeral (machine.registers.get register).toNat ∧
    Sink.writeAll machine.out (printed (machine.registers.get register)) = (next.out, none) ∧
    ∀ held : σ → List Char, Sink.Appends held →
      held next.out = held machine.out ++ numeral ++ ['\n']
  goesOn : machine.GoesOn instruction next activity
  frame : next.table = machine.table ∧ next.romEnd = machine.romEnd
  steps : next.steps = machine.steps + 1

theorem goesOn_of_plans (executes : machine.Executes instruction)
    (plans : machine.Plans instruction effect)
    (performed : machine.counted.perform effect = (next, .ok activity)) :
    machine.GoesOn instruction next activity := by
  have onward : effect ≠ .halt → (∀ target, effect ≠ .jump target) →
      next.pc.toNat = machine.pc.toNat + 4 ∧ next.activity = .running ∧ activity = .running := by
    intro stays other
    obtain ⟨pc, same, rfl⟩ := advances_of_perform performed stays other
    exact ⟨(congrArg UInt16.toNat pc).trans executes.advance_pc, same.trans executes.1, rfl⟩
  cases plans with
  | halt =>
    cases performed
    exact .halts rfl rfl
  | @jump condition target address taken placed =>
    cases performed
    have lands := toNat_place address
    exact .jumps taken (lands.symm ▸ means_of_place placed) (lands.trans_lt address.isLt) executes.1
  | skip passed =>
    obtain ⟨pc, running, rfl⟩ := onward nofun nofun
    refine .advances nofun ?_ pc running
    rintro condition ⟨rfl⟩
    exact passed
  | _ =>
    obtain ⟨pc, running, rfl⟩ := onward nofun nofun
    exact .advances nofun nofun pc running

theorem stored_of_plans {operands : List Operand}
    (plans : machine.Plans ⟨.store, operands⟩ effect) :
    ∃ source destination address, operands = [.register source, destination] ∧
      machine.Means destination address ∧ address < 4096 ∧
      ∀ other, (machine.counted.perform effect).1.memory.read? other =
        if other = address then some (machine.registers.get source)
        else machine.memory.read? other := by
  cases plans with
  | @store source destination address placed =>
    refine ⟨source, destination, address, rfl, means_of_place placed, address.isLt, ?_⟩
    intro other
    show (machine.memory.set address _).read? other = _
    rw [Memory.read?_set]
    simp only [eq_comm]

theorem line_of_plans {operands : List Operand} (plans : machine.Plans ⟨.print, operands⟩ effect)
    (performed : machine.counted.perform effect = (next, .ok activity)) :
    ∃ register numeral, operands = [.register register] ∧
      Numeral.Plain numeral (machine.registers.get register).toNat ∧
      Sink.writeAll machine.out (printed (machine.registers.get register)) = (next.out, none) ∧
      ∀ held : σ → List Char, Sink.Appends held →
        held next.out = held machine.out ++ numeral ++ ['\n'] := by
  cases plans with
  | @print register =>
    have written := writeAll_of_perform performed
    refine ⟨register, _, rfl, Numeral.plain_digits _, written, fun held appends => ?_⟩
    have whole : held next.out = held machine.out ++ _ := appends.writeAll_of_none written
    rw [whole, List.append_assoc]
    simp [printed, Numeral.decimal]

/-- A step that executes an instruction and succeeds touches only what the instruction names. -/
theorem touches_of_step (machine next : Machine σ) (instruction : Instruction)
    (activity : Activity) (executes : machine.Executes instruction)
    (step : machine.step = (next, .ok activity)) : machine.Touches instruction next activity := by
  cases planned : machine.plan instruction with
  | error fault =>
    rw [executes.step_eq, execute_eq, planned] at step
    cases step
  | ok effect =>
    have performed := (executes.step_of_plan planned).symm.trans step
    have plans := plan_eq_ok_iff.mp planned
    have goesOn := goesOn_of_plans executes plans performed
    obtain ⟨opcode, operands⟩ := instruction
    obtain rfl : _ = next := congrArg Prod.fst performed
    -- An instruction that does not name a part has an effect of another kind, which leaves it alone.
    refine ⟨?_, ?_, ?_, ?_, ?_, ?_, ?_, goesOn, machine.counted.perform_frame effect,
      machine.counted.steps_perform effect⟩
    · intro other
      refine machine.counted.memory_perform ?_
      rintro address value rfl
      cases plans
      exact other rfl
    · rintro ⟨rfl⟩
      exact stored_of_plans plans
    · intro register changed
      rw [← plans.target?_eq]
      exact machine.counted.get_perform changed
    · intro other
      refine machine.counted.condition_perform ?_
      rintro left right rfl
      cases plans
      exact other rfl
    · intro other status
      refine machine.counted.contains_perform ?_ status
      rintro target result rfl
      cases plans
      cases other
    · intro other
      refine machine.counted.out_perform ?_
      rintro value rfl
      cases plans
      exact other rfl
    · rintro ⟨rfl⟩
      exact line_of_plans plans performed

def printsZero : Machine Transcript := { printsToFull with out := .empty }

set_option maxRecDepth 4000 in
theorem touches_of_step_print :
    printsZero.Executes ⟨.print, [.register ⟨0⟩]⟩ ∧
      ∃ next, printsZero.step = (next, .ok .running) ∧
        printsZero.Touches ⟨.print, [.register ⟨0⟩]⟩ next .running ∧ next.out.text = "0\n" ∧
        ∃ register numeral, Numeral.Plain numeral (printsZero.registers.get register).toNat ∧
          next.out.text.toList = numeral ++ ['\n'] := by
  have executes : printsZero.Executes ⟨.print, [.register ⟨0⟩]⟩ := ⟨rfl, 0x19000000, rfl, rfl⟩
  have touches := touches_of_step printsZero printsZero.step.1 _ .running executes rfl
  obtain ⟨register, numeral, -, plain, -, line⟩ := touches.line rfl
  exact ⟨executes, _, rfl, touches, rfl, register, numeral, plain, line _ Transcript.appends⟩

end Machine

end Tetrad
