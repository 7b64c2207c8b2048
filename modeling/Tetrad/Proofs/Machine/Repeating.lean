import Mathlib.Data.Fintype.Pigeonhole
import Mathlib.Data.Fintype.Pi
import Mathlib.Data.Fintype.Prod
import Mathlib.Data.Fintype.BigOperators
import Tetrad.Proofs.Machine.Ending
import Tetrad.Proofs.Machine.Sinks

/-!
# Machines that never end

What a machine does next depends on its memory, registers, flags and program counter, and there are
`stateCount` of these. A machine that has taken more steps than that was in one of them twice, so it
never ends (`not_ends_of_repeat`), and a run without a bound finds the end of every machine that has
one (`run_eq_iff`).
-/

namespace Tetrad

namespace Machine

variable {σ : Type} [Sink σ] {property : σ → Prop} {machine other last : Machine σ}
  {count fuel i j : Nat} {outcome : Outcome}

/-- The bytes of memory and of the registers, the flags and the program counter, as numbers. -/
abbrev State : Type := (Fin memorySize → Fin 256) × (Fin 16 → Fin 256) × Fin 256 × Fin 65536

/-- What the next step depends on, but for the table and the end of the program. -/
def state (machine : Machine σ) : State :=
  (fun address => (machine.memory.bytes.get address).toFin,
    fun index => (machine.registers.values.get index).toFin, machine.flags.bits.toFin,
    machine.pc.toFin)

theorem card_state : Fintype.card State = stateCount := by
  have states : stateCount = 2 ^ (8 * memorySize + 8 * 16 + 8 + 16) := Nat.one_shiftLeft _
  have byte : (256 : Nat) = 2 ^ 8 := rfl
  have half : (65536 : Nat) = 2 ^ 16 := rfl
  rw [states, Fintype.card_prod, Fintype.card_prod, Fintype.card_prod, Fintype.card_fun,
    Fintype.card_fun, Fintype.card_fin, Fintype.card_fin, Fintype.card_fin, Fintype.card_fin,
    byte, half, ← pow_mul, ← pow_mul, pow_add, pow_add, pow_add, mul_assoc, mul_assoc]

theorem toFin_injective_vector {size : Nat} {first second : Vector UInt8 size}
    (same : (fun index => (first.get index).toFin) = fun index => (second.get index).toFin) :
    first = second := by
  apply Vector.ext
  intro index inside
  exact UInt8.toFin_inj.mp (congrFun same ⟨index, inside⟩)

omit [Sink σ] in
/-- Machines in one state differ in what they have counted and printed only. -/
theorem eq_recount_of_state (table : other.table = machine.table)
    (romEnd : other.romEnd = machine.romEnd) (activity : other.activity = machine.activity)
    (same : other.state = machine.state) : other = machine.recount other.steps other.out := by
  obtain ⟨_, ⟨memory⟩, ⟨registers⟩, ⟨flags⟩, pc, _, _, _, _⟩ := machine
  obtain ⟨_, ⟨memoryToo⟩, ⟨registersToo⟩, ⟨flagsToo⟩, pcToo, _, _, _, _⟩ := other
  obtain ⟨memories, rest⟩ := Prod.mk.inj same
  obtain ⟨registersSame, rest⟩ := Prod.mk.inj rest
  obtain ⟨bits, counters⟩ := Prod.mk.inj rest
  cases table
  cases romEnd
  cases activity
  cases toFin_injective_vector memories
  cases toFin_injective_vector registersSame
  cases UInt8.toFin_inj.mp bits
  cases UInt16.toFin_inj.mp counters
  rfl

/-- In an unfinished run the machine runs on after every step. -/
theorem step_of_unfinished (unfinished : (machine.runFor fuel).2 = .unfinished) (early : i < fuel) :
    (machine.stepped i).step = (machine.stepped (i + 1), .ok .running) := by
  induction fuel generalizing machine i with
  | zero => exact absurd early (Nat.not_lt_zero i)
  | succ fuel ih =>
    rw [runFor] at unfinished
    split at unfinished
    · cases unfinished
    · cases unfinished
    · next next step =>
      have same : machine.step.1 = next := congrArg Prod.fst step
      cases i with
      | zero =>
        rw [stepped_succ, same]
        exact step
      | succ i =>
        rw [stepped_succ, stepped_succ, same]
        exact ih unfinished (by omega)

/-- But for its count and its sink, the machine is as another one after fewer steps than given. -/
def Among (property : σ → Prop) (machine : Machine σ) (j : Nat) (now : Machine σ) : Prop :=
  ∃ k < j, ∃ steps out, property out ∧ now = (machine.stepped k).recount steps out

/-- Where the last of these steps leads back to an earlier machine, each step stays among them. -/
theorem Among.step {now : Machine σ} (among : Among property machine j now)
    (takes : Sink.Takes property) (holds : property machine.out)
    (runs : ∀ k < j, (machine.stepped k).step = (machine.stepped (k + 1), .ok .running))
    (before : i < j) {steps : Nat} {out : σ}
    (again : machine.stepped j = (machine.stepped i).recount steps out) :
    ∃ next, now.step = (next, .ok .running) ∧ Among property machine j next := by
  obtain ⟨k, inside, number, sink, own, rfl⟩ := among
  obtain ⟨counted, after, step⟩ :=
    takes.step_recount (takes.keeps.stepped holds k) number own
  have kept : property ((machine.stepped k).recount number sink).step.1.out :=
    takes.keeps.step (by exact own)
  rw [step] at kept
  rw [runs k inside] at step
  refine ⟨_, step, ?_⟩
  by_cases last : k + 1 < j
  · exact ⟨k + 1, last, counted, after, kept, rfl⟩
  · have round : k + 1 = j := by omega
    rw [round, again]
    exact ⟨i, before, counted, after, kept, rfl⟩

/-- A machine that runs on until it is in an earlier state again goes round for ever. -/
theorem not_ends_of_repeat (takes : Sink.Takes property) (holds : property machine.out)
    (runs : ∀ k < j, (machine.stepped k).step = (machine.stepped (k + 1), .ok .running))
    (before : i < j) {steps : Nat} {out : σ}
    (again : machine.stepped j = (machine.stepped i).recount steps out) :
    ¬ machine.Ends count last outcome := by
  have goes : ∀ now, Among property machine j now →
      ∃ next, now.step = (next, .ok .running) ∧ Among property machine j next :=
    fun now among => among.step takes holds runs before again
  exact not_ends_of_invariant goes ⟨0, by omega, machine.steps, machine.out, holds, rfl⟩

/-- A machine that runs on for as many steps as there are states is in one of them twice. -/
theorem exists_repeat
    (runs : ∀ k ≤ stateCount, (machine.stepped k).step = (machine.stepped (k + 1), .ok .running)) :
    ∃ i j steps out, i < j ∧ j ≤ stateCount ∧
      machine.stepped j = (machine.stepped i).recount steps out := by
  have active : ∀ k ≤ stateCount, (machine.stepped k).activity = .running := by
    intro k within
    cases activity : (machine.stepped k).activity with
    | running => rfl
    | halted =>
      have step := congrArg Prod.snd (runs k within)
      rw [step_of_halted activity] at step
      cases step
  have more : Fintype.card State < Fintype.card (Fin (stateCount + 1)) := by
    rw [card_state, Fintype.card_fin]
    exact Nat.lt_succ_self _
  obtain ⟨a, b, different, same⟩ := Fintype.exists_ne_map_eq_of_card_lt
    (fun k : Fin (stateCount + 1) => (machine.stepped k).state) more
  have repeats : ∀ i j : Nat, i ≤ stateCount → j ≤ stateCount →
      (machine.stepped j).state = (machine.stepped i).state →
      machine.stepped j =
        (machine.stepped i).recount (machine.stepped j).steps (machine.stepped j).out := by
    intro i j first second same
    obtain ⟨table, romEnd⟩ := machine.stepped_frame i
    obtain ⟨tableToo, romEndToo⟩ := machine.stepped_frame j
    exact eq_recount_of_state (tableToo.trans table.symm) (romEndToo.trans romEnd.symm)
      ((active j second).trans (active i first).symm) same
  have withinA : a.val ≤ stateCount := Nat.le_of_lt_succ a.isLt
  have withinB : b.val ≤ stateCount := Nat.le_of_lt_succ b.isLt
  rcases Nat.lt_or_gt_of_ne (Fin.val_ne_of_ne different) with before | before
  · exact ⟨a, b, _, _, before, withinB, repeats a b withinA withinB same.symm⟩
  · exact ⟨b, a, _, _, before, withinA, repeats b a withinB withinA same⟩

/-- A run over a sink that takes every text is unfinished just if the machine never ends. -/
theorem run_unfinished_iff (takes : Sink.Takes property) (holds : property machine.out) :
    machine.run.2 = .unfinished ↔ ∀ count last outcome, ¬ machine.Ends count last outcome := by
  constructor
  · intro unfinished count last outcome
    have runs : ∀ k ≤ stateCount,
        (machine.stepped k).step = (machine.stepped (k + 1), .ok .running) :=
      fun k within => step_of_unfinished unfinished (Nat.lt_succ_of_le within)
    obtain ⟨i, j, steps, out, before, within, again⟩ := exists_repeat runs
    exact not_ends_of_repeat takes holds (fun k inside => runs k (by omega)) before again
  · intro endless
    by_contra finished
    obtain ⟨count, -, ends⟩ := ends_of_runFor finished rfl
    exact endless count _ _ ends

/-- A run over such a sink comes to the end of the machine if it has one. -/
theorem run_eq_iff (takes : Sink.Takes property) (holds : property machine.out)
    (finished : outcome ≠ .unfinished) :
    machine.run = (last, outcome) ↔ ∃ count, machine.Ends count last outcome := by
  constructor
  · intro runs
    obtain ⟨count, -, ends⟩ := ends_of_runFor finished runs
    exact ⟨count, ends⟩
  · rintro ⟨count, ends⟩
    have open_ : machine.run.2 ≠ .unfinished := fun unfinished =>
      (run_unfinished_iff takes holds).mp unfinished count last outcome ends
    obtain ⟨number, -, own⟩ := ends_of_runFor open_ rfl
    obtain ⟨-, rfl, rfl⟩ := ends.unique own
    rfl

end Machine

end Tetrad
