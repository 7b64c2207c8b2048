import Mathlib.Data.Nat.Bitwise
import Tetrad.Proofs.Machine.Loading
import Tetrad.Proofs.Machine.Meaning
import Tetrad.Proofs.Machine.Status

/-!
# What operations compute

The number that an operation gives is said without computing it (`AluOp.Gives`), and words of 32
bits that wrap around come to the same number (`AluOp.wrapped_eq`). A step that executes an
operation always succeeds. It keeps the low byte of that number, and tells of the rest by the flags
(`Machine.computes_of_executes`).
-/

namespace Tetrad

namespace AluOp

variable {op : AluOp} {left right : Nat} {result : Int}

/-- The number that an operation gives. A quotient is rounded down, and there is none for a division
by zero. The logical operations go bit by bit, and a complement is taken of the low byte. -/
inductive Gives (left right : Nat) : AluOp → Int → Prop
  | add : Gives left right .add (left + right)
  | sub : Gives left right .sub (left - right)
  | mul : Gives left right .mul (left * right)
  | div {quotient : Nat} (lower : quotient * right ≤ left)
      (upper : left < (quotient + 1) * right) : Gives left right .div quotient
  | xor {number : Nat}
      (bits : ∀ place, number.testBit place = (left.testBit place ^^ right.testBit place)) :
      Gives left right .xor number
  | and {number : Nat}
      (bits : ∀ place, number.testBit place = (left.testBit place && right.testBit place)) :
      Gives left right .and number
  | or {number : Nat}
      (bits : ∀ place, number.testBit place = (left.testBit place || right.testBit place)) :
      Gives left right .or number
  | not : Gives left right .not (255 - (right % 256 : Nat))

theorem result_eq_some_iff :
    op.result left right = some result ↔ Gives left right op result := by
  have complement : ((255 - right % 256 : Nat) : Int) = 255 - (right % 256 : Nat) := by omega
  constructor
  · intro found
    cases op with
    | add => exact Option.some.inj found ▸ .add
    | sub => exact Option.some.inj found ▸ .sub
    | mul => exact Option.some.inj found ▸ .mul
    | div =>
      rw [AluOp.result] at found
      split at found
      · cases found
      · next nonzero =>
        rw [← Option.some.inj found, ← Int.natCast_ediv]
        refine .div (Nat.div_mul_le_self left right) ?_
        rw [Nat.mul_comm]
        exact Nat.lt_mul_div_succ left (Nat.pos_of_ne_zero nonzero)
    | xor => exact Option.some.inj found ▸ .xor (Nat.testBit_xor left right)
    | and => exact Option.some.inj found ▸ .and (Nat.testBit_and left right)
    | or => exact Option.some.inj found ▸ .or (Nat.testBit_or left right)
    | not =>
      rw [← Option.some.inj found, complement]
      exact .not
  · intro gives
    cases gives with
    | add | sub | mul => rfl
    | @div quotient lower upper =>
      have nonzero : right ≠ 0 := by
        rintro rfl
        exact absurd upper (Nat.not_lt_zero left)
      rw [AluOp.result, if_neg nonzero, ← Int.natCast_ediv, Nat.div_eq_of_lt_le lower upper]
    | xor bits =>
      rw [AluOp.result, Nat.eq_of_testBit_eq fun place => (bits place).trans
        (Nat.testBit_xor left right place).symm]
    | and bits =>
      rw [AluOp.result, Nat.eq_of_testBit_eq fun place => (bits place).trans
        (Nat.testBit_and left right place).symm]
    | or bits =>
      rw [AluOp.result, Nat.eq_of_testBit_eq fun place => (bits place).trans
        (Nat.testBit_or left right place).symm]
    | not => rw [AluOp.result, complement]

theorem result_eq_none_iff : op.result left right = none ↔ op = .div ∧ right = 0 := by
  cases op <;> simp [AluOp.result]

/-- An operation on signed words of 32 bits, which wrap around. -/
def wrapped (left right : Int32) : AluOp → Option Int32
  | add => some (left + right)
  | sub => some (left - right)
  | mul => some (left * right)
  | div => if right = 0 then none else some (left / right)
  | xor => some (left ^^^ right)
  | and => some (left &&& right)
  | or => some (left ||| right)
  | not => some (~~~right &&& 0xFF)

/-- A byte and a number of 16 bits are far enough from the ends of a word. -/
theorem bmod_eq {number : Int} (lower : -(2 ^ 31) ≤ number) (upper : number < 2 ^ 31) :
    number.bmod (2 ^ 32) = number :=
  Int.bmod_eq_of_le (by omega) (by omega)

theorem map_toInt_of_eq {word : Int32} {number : Nat} (small : number < 2 ^ 16)
    (same : word = Int32.ofNat number) : (some word).map Int32.toInt = some (number : Int) := by
  rw [Option.map_some, same, Int32.toInt_ofNat_of_lt (by omega)]

theorem complement_and_eq (small : right < 65536) :
    ~~~Int32.ofNat right &&& 0xFF = Int32.ofNat (255 - right % 256) := by
  have low : (2 ^ 32 - 1 - right) &&& 0xFF = 255 - right % 256 := by
    rw [Nat.and_two_pow_sub_one_eq_mod _ 8]
    omega
  have own : (BitVec.ofNat 32 right).toNat = right := Nat.mod_eq_of_lt (by omega)
  apply Int32.toBitVec_inj.mp
  apply BitVec.eq_of_toNat_eq
  show (~~~BitVec.ofNat 32 right &&& 0xFF#32).toNat = (255 - right % 256) % 2 ^ 32
  rw [BitVec.toNat_and, BitVec.toNat_not, own]
  exact low.trans (Nat.mod_eq_of_lt (by omega)).symm

/-- Nothing overflows: on words an operation comes to the exact number. -/
theorem wrapped_eq (leftSmall : left < 256) (rightSmall : right < 65536) :
    (op.wrapped (Int32.ofNat left) (Int32.ofNat right)).map Int32.toInt = op.result left right := by
  have leftInt : (Int32.ofNat left).toInt = left := Int32.toInt_ofNat_of_lt (by omega)
  have rightInt : (Int32.ofNat right).toInt = right := Int32.toInt_ofNat_of_lt (by omega)
  -- No result is further from zero than the largest product.
  have product : left * right ≤ 255 * 65535 := Nat.mul_le_mul (by omega) (by omega)
  cases op with
  | add =>
    simp only [wrapped, AluOp.result, Option.map_some, Int32.toInt_add, leftInt, rightInt]
    rw [bmod_eq (by omega) (by omega)]
  | sub =>
    simp only [wrapped, AluOp.result, Option.map_some, Int32.toInt_sub, leftInt, rightInt]
    rw [bmod_eq (by omega) (by omega)]
  | mul =>
    have exact : (left : Int) * right = (left * right : Nat) := (Int.natCast_mul left right).symm
    simp only [wrapped, AluOp.result, Option.map_some, Int32.toInt_mul, leftInt, rightInt]
    rw [exact, bmod_eq (by omega) (by omega)]
  | div =>
    have zero : Int32.ofNat right = 0 ↔ right = 0 := by
      rw [← Int32.toInt_inj, rightInt]
      exact Int.natCast_eq_zero
    have quotient : (left : Int).tdiv right = (left / right : Nat) := rfl
    have smaller : left / right ≤ left := Nat.div_le_self left right
    have positive : (0 : Int) ≤ (left / right : Nat) := Int.natCast_nonneg _
    simp only [wrapped, AluOp.result, zero]
    split
    · rfl
    · rw [Option.map_some, Int32.toInt_div, leftInt, rightInt, quotient,
        bmod_eq (by omega) (by omega)]
      rfl
  | xor =>
    exact map_toInt_of_eq (Nat.xor_lt_two_pow (by omega) rightSmall)
      (Int32.toBitVec_inj.mp BitVec.ofNat_xor.symm)
  | and =>
    exact map_toInt_of_eq (Nat.and_lt_two_pow left rightSmall)
      (Int32.toBitVec_inj.mp BitVec.ofNat_and.symm)
  | or =>
    exact map_toInt_of_eq (Nat.or_lt_two_pow (by omega) rightSmall)
      (Int32.toBitVec_inj.mp BitVec.ofNat_or.symm)
  | not => exact map_toInt_of_eq (by omega) (complement_and_eq rightSmall)

end AluOp

theorem Status.ofResult_eq_above_iff {result : Int} :
    ofResult (some result) = .above ↔ 255 < result := by
  rw [ofResult]
  split
  · simp_all
  · split <;> simp <;> omega

theorem Status.ofResult_eq_below_iff {result : Int} :
    ofResult (some result) = .below ↔ result < 0 := by
  rw [ofResult]
  split
  · simp
    omega
  · split <;> simp_all

theorem Status.ofResult_ne_byZero (result : Int) : ofResult (some result) ≠ .byZero := by
  rw [ofResult]
  split
  · decide
  · split <;> decide

namespace Machine

variable {σ : Type}

/-- The machine keeps what it can of a number. The low byte is in the target, unless this is the
zero register, and every other register is as it was. The flags tell whether the number is above or
below the range of a byte. -/
structure Computed (machine : Machine σ) (target : Register) (result : Int)
    (next : Machine σ) : Prop where
  registers : ∀ register, ((next.registers.get register).toNat : Int) =
    if register = target ∧ register ≠ .zero then result % 256
    else (machine.registers.get register).toNat
  overflow : next.flags.contains Flags.overflow = true ↔ 255 < result
  underflow : next.flags.contains Flags.underflow = true ↔ result < 0
  byZero : next.flags.contains Flags.divideByZero = false

/-- What a step leaves that executes an operation on a register and a number. A division by zero
leaves the registers, and sets its own bit and no other of the three. Every other operation gives a
number, which words of 32 bits come to as well. The condition code stays, and of the machine nothing
but the registers and the flags changes as it goes on to the next word. -/
structure Computes (machine : Machine σ) (op : AluOp) (target : Register) (right : Nat)
    (next : Machine σ) : Prop where
  byZero : op = .div → right = 0 → next.registers = machine.registers ∧
    next.flags.contains Flags.divideByZero = true ∧
    next.flags.contains Flags.overflow = false ∧ next.flags.contains Flags.underflow = false
  computed : ¬ (op = .div ∧ right = 0) → ∃ result,
    AluOp.Gives (machine.registers.get target).toNat right op result ∧
    (op.wrapped (Int32.ofNat (machine.registers.get target).toNat) (Int32.ofNat right)).map
      Int32.toInt = some result ∧
    machine.Computed target result next
  condition : next.flags.condition = machine.flags.condition
  frame : next =
    { machine.counted with registers := next.registers, flags := next.flags }.advance

theorem computed_perform [Sink σ] (machine : Machine σ) (target : Register) (result : Int) :
    machine.Computed target result
      (machine.counted.perform (.compute target (some result))).1 := by
  have above := @Flags.contains_record .above machine.flags (some result) nofun
  have below := @Flags.contains_record .below machine.flags (some result) nofun
  have byZero := @Flags.contains_record .byZero machine.flags (some result) nofun
  refine ⟨?_, above.trans Status.ofResult_eq_above_iff, below.trans Status.ofResult_eq_below_iff,
    ?_⟩
  · intro register
    show (((machine.registers.set target (UInt8.ofInt result)).get register).toNat : Int) = _
    rw [Registers.get_set]
    by_cases own : register = target ∧ register ≠ .zero
    · obtain ⟨rfl, nonzero⟩ := own
      rw [if_pos ⟨rfl, nonzero⟩, if_pos ⟨rfl, nonzero⟩, toNat_ofInt]
    · have other : ¬ (target = register ∧ target ≠ .zero) := by
        rintro ⟨rfl, nonzero⟩
        exact own ⟨rfl, nonzero⟩
      rw [if_neg own, if_neg other]
  · exact Bool.eq_false_iff.mpr fun set => Status.ofResult_ne_byZero result (byZero.mp set)

theorem computes_perform [Sink σ] (machine : Machine σ) (op : AluOp) (target : Register)
    {right : Nat} (small : right < 65536) :
    machine.Computes op target right (machine.counted.perform
      (.compute target (op.result (machine.registers.get target).toNat right))).1 := by
  have words := op.wrapped_eq (machine.registers.get target).toNat_lt small
  cases found : op.result (machine.registers.get target).toNat right with
  | none =>
    have above := @Flags.contains_record .above machine.flags none nofun
    have below := @Flags.contains_record .below machine.flags none nofun
    have byZero := @Flags.contains_record .byZero machine.flags none nofun
    refine ⟨fun _ _ => ⟨rfl, byZero.mpr rfl, ?_, ?_⟩, ?_, machine.flags.condition_record none, rfl⟩
    · exact Bool.eq_false_iff.mpr fun set => nomatch above.mp set
    · exact Bool.eq_false_iff.mpr fun set => nomatch below.mp set
    · exact fun other => absurd (AluOp.result_eq_none_iff.mp found) other
  | some result =>
    refine ⟨?_, fun _ => ⟨result, AluOp.result_eq_some_iff.mp found, words.trans found,
      machine.computed_perform target result⟩, machine.flags.condition_record _, rfl⟩
    rintro rfl rfl
    cases found

/-- A step that executes an operation succeeds, and computes what the operation gives. -/
theorem computes_of_executes [Sink σ] (machine : Machine σ) (op : AluOp) (operands : List Operand)
    (standard : machine.table = Table.standard) (executes : machine.Executes ⟨.alu op, operands⟩) :
    ∃ target source right next, operands = [.register target, source] ∧
      machine.Names source right ∧ machine.step = (next, .ok .running) ∧
      machine.Computes op target right next := by
  obtain ⟨target, source, right, listed, names⟩ := executes.exists_names standard rfl
  obtain rfl : operands = [.register target, source] := listed
  have step := executes.step_of_plan (plan_eq_ok_iff.mpr (Plans.alu names.number_eq))
  exact ⟨target, source, right, _, rfl, names, step, machine.computes_perform op target names.lt⟩

/-- A machine that subtracts 5 from the comparison register, which holds 3. Its flags tell of an
earlier overflow and of a comparison that went below. -/
def subtracts : Machine Transcript :=
  { holding [0x48F00050] with
    registers := Registers.blank.set .cmp 3
    flags := ⟨0b01010⟩ }

/-- The underflow takes the place of the overflow, and the comparison stays. -/
theorem computes_of_executes_stale :
    subtracts.table = Table.standard ∧
      subtracts.Executes ⟨.alu .sub, [.register .cmp, .immediate 5]⟩ ∧
      ∃ next, subtracts.step = (next, .ok .running) ∧ subtracts.Computes .sub .cmp 5 next ∧
        next.registers.get .cmp = 254 ∧ next.flags = ⟨0b10010⟩ := by
  have executes : subtracts.Executes ⟨.alu .sub, [.register .cmp, .immediate 5]⟩ :=
    executes_of_holding [0x48F00050] 0 (by decide) rfl rfl rfl rfl
  obtain ⟨target, source, right, next, listed, names, step, computes⟩ :=
    computes_of_executes subtracts .sub _ rfl executes
  cases listed
  cases names
  have performed := executes.step_of_plan (plan_eq_ok_iff.mpr (.alu rfl))
  obtain rfl : _ = next := congrArg Prod.fst (performed.symm.trans step)
  exact ⟨rfl, executes, _, step, computes, rfl, rfl⟩

end Machine

end Tetrad
