import Tetrad.Machine.Run
import Tetrad.Proofs.Machine.Stepping

/-!
# How machines end

A machine ends at the first step that halts or fails (`Machine.Ends`). A run with a bound ends as the
machine does if the bound is not below the number of these steps (`Ends.runFor`). A bound on the step
count of the machine comes to the same, as just the steps after which a machine runs on are sure to be
counted (`Ends.runUntil`).
-/

namespace Tetrad

namespace Machine

variable {σ : Type} [Sink σ] {machine last : Machine σ} {count fuel limit : Nat} {outcome : Outcome}

/-- The step of this number is the first one that halts or fails. It leads to the last machine. -/
inductive Ends : Machine σ → Nat → Machine σ → Outcome → Prop
  | halt {machine last : Machine σ} (step : machine.step = (last, .ok .halted)) :
      Ends machine 1 last .halted
  | fail {machine last : Machine σ} {fault : Fault} (step : machine.step = (last, .error fault)) :
      Ends machine 1 last (.failed fault)
  | next {machine next last : Machine σ} {count : Nat} {outcome : Outcome}
      (step : machine.step = (next, .ok .running)) (later : Ends next count last outcome) :
      Ends machine (count + 1) last outcome

/-- A machine ends in one way at most. -/
theorem Ends.unique {other : Machine σ} {number : Nat} {result : Outcome}
    (ends : machine.Ends count last outcome) (again : machine.Ends number other result) :
    number = count ∧ other = last ∧ result = outcome := by
  induction ends generalizing number with
  | halt step =>
    cases again with
    | halt same =>
      rw [step] at same
      cases same
      exact ⟨rfl, rfl, rfl⟩
    | fail same | next same =>
      rw [step] at same
      cases same
  | fail step =>
    cases again with
    | fail same =>
      rw [step] at same
      cases same
      exact ⟨rfl, rfl, rfl⟩
    | halt same | next same =>
      rw [step] at same
      cases same
  | next step _ ih =>
    cases again with
    | halt same | fail same =>
      rw [step] at same
      cases same
    | next same later =>
      rw [step] at same
      cases same
      obtain ⟨rfl, rfl, rfl⟩ := ih later
      exact ⟨rfl, rfl, rfl⟩

theorem Ends.pos (ends : machine.Ends count last outcome) : 0 < count := by
  cases ends with
  | halt | fail => exact Nat.one_pos
  | next => exact Nat.succ_pos _

theorem Ends.eq_stepped (ends : machine.Ends count last outcome) :
    last = machine.stepped count := by
  induction ends with
  | halt step | fail step => exact (congrArg Prod.fst step).symm
  | next step _ ih => rw [stepped_succ, step, ih]

theorem Ends.finished (ends : machine.Ends count last outcome) : outcome ≠ .unfinished := by
  induction ends with
  | halt | fail => exact nofun
  | next _ _ ih => exact ih

/-- A machine does not end if every step of it runs on and keeps a property that has it do so. -/
theorem not_ends_of_invariant {property : Machine σ → Prop}
    (goes : ∀ machine, property machine →
      ∃ next, machine.step = (next, .ok .running) ∧ property next)
    (holds : property machine) : ¬ machine.Ends count last outcome := by
  intro ends
  induction ends with
  | halt step | fail step =>
    obtain ⟨next, same, -⟩ := goes _ holds
    rw [step] at same
    cases same
  | next step _ ih =>
    obtain ⟨next, same, kept⟩ := goes _ holds
    rw [step] at same
    cases same
    exact ih kept

/-- A run ends as the machine does, if it may take as many steps. -/
theorem Ends.runFor (ends : machine.Ends count last outcome) (enough : count ≤ fuel) :
    machine.runFor fuel = (last, outcome) := by
  induction ends generalizing fuel with
  | halt step | fail step =>
    obtain ⟨fuel, rfl⟩ := Nat.exists_eq_add_of_le' enough
    rw [Machine.runFor, step]
  | next step _ ih =>
    obtain ⟨fuel, rfl⟩ := Nat.exists_eq_add_of_le' enough
    rw [← Nat.add_assoc, Machine.runFor, step]
    exact ih (by omega)

theorem ends_of_runFor (finished : outcome ≠ .unfinished)
    (runs : machine.runFor fuel = (last, outcome)) :
    ∃ count ≤ fuel, machine.Ends count last outcome := by
  induction fuel generalizing machine with
  | zero =>
    cases runs
    exact absurd rfl finished
  | succ fuel ih =>
    rw [Machine.runFor] at runs
    split at runs
    · next step =>
      cases runs
      exact ⟨1, by omega, .fail step⟩
    · next step =>
      cases runs
      exact ⟨1, by omega, .halt step⟩
    · next step =>
      obtain ⟨count, within, later⟩ := ih runs
      exact ⟨count + 1, by omega, .next step later⟩

/-- The steps that the harness allows are fewer than the states of a machine. -/
theorem stepLimit_le_stateCount : stepLimit ≤ stateCount := by
  have states : stateCount = 2 ^ (8 * memorySize + 8 * 16 + 8 + 16) := Nat.one_shiftLeft _
  rw [states]
  calc stepLimit ≤ 2 ^ 17 := by decide
    _ ≤ _ := Nat.pow_le_pow_right (by decide) (by decide)

theorem Ends.run (ends : machine.Ends count last outcome) (few : count ≤ stateCount + 1) :
    machine.run = (last, outcome) :=
  ends.runFor few

theorem runUntil_eq (limit : Nat) (machine : Machine σ) : machine.runUntil limit =
    match machine.step with
    | (last, .error fault) => (last, .failed fault)
    | (last, .ok .halted) => (last, .halted)
    | (next, .ok .running) =>
      if limit ≤ next.steps then (next, .unfinished) else next.runUntil limit := by
  rw [Machine.runUntil]
  split <;> next step => rw [step]

/-- Every step after which the machine runs on is counted, so a limit is not met before the end if
there are not more steps up to the end. -/
theorem Ends.runUntil (ends : machine.Ends count last outcome)
    (within : machine.steps + count ≤ limit) : machine.runUntil limit = (last, outcome) := by
  induction ends with
  | halt step | fail step => rw [runUntil_eq, step]
  | next step later ih =>
    have counted := steps_of_step_running step
    have more := later.pos
    rw [runUntil_eq, step]
    dsimp only
    rw [if_neg (by omega)]
    exact ih (by omega)

/-- The limit is met if the machine takes more steps. -/
theorem runUntil_unfinished (below : machine.steps < limit)
    (late : ∀ count last outcome, machine.Ends count last outcome → limit < machine.steps + count) :
    (machine.runUntil limit).2 = .unfinished := by
  fun_induction Machine.runUntil limit machine with
  | case1 machine last fault step =>
    have first := late 1 last (.failed fault) (.fail step)
    omega
  | case2 machine last step =>
    have first := late 1 last .halted (.halt step)
    omega
  | case3 => rfl
  | case4 machine next step open_ ih =>
    have counted := steps_of_step_running step
    refine ih (by omega) ?_
    intro count last outcome ends
    have whole := late (count + 1) last outcome (.next step ends)
    omega

end Machine

end Tetrad
