import Mathlib.Logic.Relation
import Tetrad.Proofs.Machine.Loading
import Tetrad.Proofs.Machine.Touching

/-!
# Comparisons and the jumps that use them

A comparison leaves a condition code, and no step but another comparison changes it
(`Remembers.continues`). So a jump in any later step of the run goes by how the two numbers compared
(`Machine.Decides`, `Machine.decides_of_compare`), whatever became of the registers that they were
in.
-/

namespace Tetrad

/-- What a condition says of the two numbers that were compared. -/
def Condition.Relates (left right : Nat) : Condition → Prop
  | always => True
  | equal => left = right
  | notEqual => left ≠ right
  | less => left < right
  | greater => left > right
  | lessOrEqual => left ≤ right
  | greaterOrEqual => left ≥ right

theorem Condition.admits_compare_iff {condition : Condition} {left right : Nat} :
    condition.admits (Ord.compare left right) = true ↔ condition.Relates left right := by
  rcases Nat.lt_trichotomy left right with below | rfl | above
  · rw [Nat.compare_eq_lt.mpr below]
    cases condition <;> simp [admits, Relates] <;> omega
  · rw [Nat.compare_eq_eq.mpr rfl]
    cases condition <;> simp [admits, Relates]
  · rw [Nat.compare_eq_gt.mpr above]
    cases condition <;> simp [admits, Relates] <;> omega

namespace Machine

variable {σ : Type} [Sink σ] {machine next state : Machine σ} {condition : Condition}
  {operands : List Operand} {left right : Nat}

/-- The machine has the table as delivered, and the condition code of two numbers. -/
structure Remembers (machine : Machine σ) (left right : Nat) : Prop where
  standard : machine.table = Table.standard
  code : machine.flags.condition = Flags.code (Ord.compare left right)

/-- A step leads from one machine to the next, whether it succeeds or not, and it does not execute
a comparison. -/
structure Continues (machine next : Machine σ) : Prop where
  step : machine.step.1 = next
  other : ∀ operands, ¬ machine.Executes ⟨.compare, operands⟩

theorem remembers_perform (machine : Machine σ) (standard : machine.table = Table.standard)
    (left right : Nat) :
    (machine.perform (.compare left right)).1.Remembers left right :=
  ⟨standard, machine.flags.condition_compare _⟩

theorem Continues.condition_eq (continues : machine.Continues next) :
    next.flags.condition = machine.flags.condition := by
  obtain ⟨rfl, other⟩ := continues
  rcases step_cases machine with ⟨-, step⟩ | ⟨-, fault, -, step⟩ | ⟨-, -, step⟩ |
    ⟨instruction, fault, -, -, step⟩ | ⟨instruction, effect, executes, planned, step⟩
  · rw [step]
  · rw [step]
  · rw [step]
  · rw [step]
    rfl
  · rw [step]
    refine machine.counted.condition_perform ?_
    rintro left right rfl
    cases plan_eq_ok_iff.mp planned with
    | compare => exact other _ executes

theorem continues_of_executes {instruction : Instruction} (executes : machine.Executes instruction)
    (other : instruction.opcode ≠ .compare) : machine.Continues machine.step.1 := by
  refine ⟨rfl, fun operands compares => ?_⟩
  have found := (executes_iff.mp executes).2.symm.trans (executes_iff.mp compares).2
  cases found
  exact other rfl

theorem Remembers.continues (remembers : machine.Remembers left right)
    (continues : machine.Continues next) : next.Remembers left right := by
  refine ⟨?_, continues.condition_eq.trans remembers.code⟩
  rw [← continues.step]
  exact machine.step_frame.1.trans remembers.standard

/-- What a comparison leaves, stays in every run that executes no other one. -/
theorem Remembers.reached (remembers : machine.Remembers left right)
    (reached : Relation.ReflTransGen Continues machine state) : state.Remembers left right := by
  induction reached with
  | refl => exact remembers
  | tail _ continues ih => exact ih.continues continues

/-- The next step is a jump that goes by two numbers. If they relate as its condition says, it goes
to the address that its target means, or fails as memory lacks this address. Otherwise it goes on to
the next word, whatever the target is. -/
structure Decides (machine : Machine σ) (condition : Condition) (target : Operand)
    (left right : Nat) : Prop where
  taken : condition.Relates left right → ¬ machine.Misses target →
    ∃ pc : UInt16, machine.Means target pc.toNat ∧
      machine.step = ({ machine.counted with pc := pc }, .ok .running)
  missed : condition.Relates left right → machine.Misses target →
    ∃ address, machine.step = (machine.counted, .error (.outOfBounds machine.pc address))
  passed : ¬ condition.Relates left right →
    machine.step = (machine.counted.advance, .ok .running) ∧
      machine.advance.pc.toNat = machine.pc.toNat + 4

theorem Remembers.decides (remembers : machine.Remembers left right)
    (executes : machine.Executes ⟨.jump condition, operands⟩) :
    ∃ target, operands = [target] ∧ machine.Decides condition target left right := by
  have handled := executes.handled remembers.standard
  obtain ⟨target, rfl, takes⟩ := eq_singleton_of_serves handled.serves
  have has : target.HasAddress := ⟨takes, handled.plain target (List.mem_singleton_self target)⟩
  have goes : machine.flags.holds condition = true ↔ condition.Relates left right := by
    rw [Flags.holds_of_condition remembers.code, Condition.admits_compare_iff]
  refine ⟨target, rfl, ?_, ?_, ?_⟩
  · intro relates found
    rcases place_cases has machine with ⟨misses, -⟩ | ⟨-, address, means, placed⟩
    · exact absurd misses found
    · refine ⟨UInt16.ofNat address.val, (toNat_place address).symm ▸ means, ?_⟩
      exact executes.step_of_plan (plan_eq_ok_iff.mpr (.jump (goes.mpr relates) placed))
  · intro relates misses
    rcases place_cases has machine with ⟨-, address, failed⟩ | ⟨found, -⟩
    · have planned : machine.plan ⟨.jump condition, [target]⟩ = (machine.place target).map .jump :=
        if_pos (goes.mpr relates)
      rw [executes.step_eq, execute_eq, planned, failed]
      exact ⟨address, rfl⟩
    · exact absurd misses found
  · intro apart
    have passed := Bool.eq_false_iff.mpr (mt goes.mp apart)
    exact ⟨executes.step_of_plan (plan_eq_ok_iff.mpr (.skip passed)), executes.advance_pc⟩

/-- A comparison succeeds and leaves the difference in the register for it. From then on until
another comparison, every jump goes by the two numbers that were compared. -/
theorem decides_of_compare (machine : Machine σ) (operands : List Operand)
    (standard : machine.table = Table.standard)
    (executes : machine.Executes ⟨.compare, operands⟩) :
    ∃ register source right next, operands = [.register register, source] ∧
      machine.Names source right ∧ machine.step = (next, .ok .running) ∧
      ((next.registers.get .cmp).toNat : Int) =
        ((machine.registers.get register).toNat - right) % 256 ∧
      ∀ state, Relation.ReflTransGen Continues next state → ∀ condition operands,
        state.Executes ⟨.jump condition, operands⟩ → ∃ target, operands = [target] ∧
          state.Decides condition target (machine.registers.get register).toNat right := by
  obtain ⟨register, source, right, listed, names⟩ := executes.exists_names standard rfl
  obtain rfl : operands = [.register register, source] := listed
  have step := executes.step_of_plan (plan_eq_ok_iff.mpr (Plans.compare names.number_eq))
  refine ⟨register, source, right, _, rfl, names, step, ?_, ?_⟩
  · have own : Register.cmp = Register.cmp ∧ Register.cmp ≠ Register.zero := by decide
    rw [← toNat_ofInt]
    show ((Registers.get (Registers.set _ .cmp _) .cmp).toNat : Int) = _
    rw [Registers.get_set, if_pos own]
  · intro state reached condition operands executes
    have remembers := machine.counted.remembers_perform standard
      (machine.registers.get register).toNat right
    exact (remembers.reached reached).decides executes

/-- A program that compares the comparison register with 5, adds 9 to what the comparison left
there, and jumps past the end of memory if it was greater, or back to its own start if it was
less. -/
def comparing : List UInt32 := [0x20F00050, 0x40F00090, 0x34FFFF00, 0x2C020000]

def compared : Machine Transcript := ((holding comparing).counted.perform (.compare 0 5)).1

def summed : Machine Transcript := (compared.counted.perform (.compute .cmp (some 260))).1

/-- The sum overflows and replaces what the comparison left in the register. The first jump is not
taken all the same, and the second one is. -/
theorem decides_of_compare_sum :
    (holding comparing).table = Table.standard ∧
      (holding comparing).Executes ⟨.compare, [.register .cmp, .immediate 5]⟩ ∧
      (holding comparing).step = (compared, .ok .running) ∧ compared.registers.get .cmp = 251 ∧
      Relation.ReflTransGen Continues compared summed ∧ summed.registers.get .cmp = 4 ∧
      summed.Decides .greater (.direct 0xFFFF) 0 5 ∧
      summed.step = (summed.counted.advance, .ok .running) ∧
      summed.counted.advance.Decides .less (.direct 0x200) 0 5 := by
  have compares : (holding comparing).Executes ⟨.compare, [.register .cmp, .immediate 5]⟩ :=
    executes_of_holding comparing 0 (by decide) rfl rfl rfl rfl
  have adds : compared.Executes ⟨.alu .add, [.register .cmp, .immediate 9]⟩ :=
    executes_of_holding comparing 1 (by decide) rfl rfl rfl rfl
  have first : summed.Executes ⟨.jump .greater, [.direct 0xFFFF]⟩ :=
    executes_of_holding comparing 2 (by decide) rfl rfl rfl rfl
  have second : summed.counted.advance.Executes ⟨.jump .less, [.direct 0x200]⟩ :=
    executes_of_holding comparing 3 (by decide) rfl rfl rfl rfl
  obtain ⟨register, source, right, next, listed, names, step, -, decides⟩ :=
    decides_of_compare (holding comparing) _ rfl compares
  cases listed
  cases names
  have performed : (holding comparing).step = (compared, .ok .running) :=
    compares.step_of_plan (plan_eq_ok_iff.mpr (.compare rfl))
  obtain rfl : compared = next := congrArg Prod.fst (performed.symm.trans step)
  have summing : compared.step = (summed, .ok .running) :=
    adds.step_of_plan (plan_eq_ok_iff.mpr (.alu rfl))
  have reached := Relation.ReflTransGen.single (continues_of_executes adds nofun)
  rw [summing] at reached
  obtain ⟨-, ⟨rfl⟩, firstDecides⟩ := decides summed reached _ _ first
  have passed := (firstDecides.passed (by decide : ¬ 0 > 5)).1
  have later := reached.tail (continues_of_executes first nofun)
  rw [passed] at later
  obtain ⟨-, ⟨rfl⟩, secondDecides⟩ := decides _ later _ _ second
  exact ⟨rfl, compares, step, rfl, reached, rfl, firstDecides, passed, secondDecides⟩

end Machine

end Tetrad
