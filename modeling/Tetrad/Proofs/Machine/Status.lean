import Tetrad.Machine.Flags

/-!
# Flags as a comparison and a status

The flags that a machine can have hold how the last comparison went and what the last computation
came to (`Flags.of`). Comparing changes the one and computing the other, and a condition holds as
the comparison says. All that the bits exclude, such as two statuses at once, is read off this form
(`Flags.sound_of`). Of flags in any form, comparing keeps the bits of a status and computing the
condition code.
-/

namespace Tetrad

inductive Status where
  | exact
  | byZero
  | above
  | below
deriving DecidableEq, Repr

namespace Status

/-- The bit of a status, none being set for an exact result. -/
def bit : Status → UInt8
  | exact => 0
  | byZero => Flags.divideByZero
  | above => Flags.overflow
  | below => Flags.underflow

/-- The status of a result, `none` standing for a division by zero. -/
def ofResult : Option Int → Status
  | none => byZero
  | some result => if result > 255 then above else if result < 0 then below else exact

end Status

/-- A comparison that went this way makes the condition hold. -/
def Condition.admits : Condition → Ordering → Bool
  | always, _ => true
  | equal, ordering => ordering == .eq
  | notEqual, ordering => ordering != .eq
  | less, ordering => ordering == .lt
  | greater, ordering => ordering == .gt
  | lessOrEqual, ordering => ordering != .gt
  | greaterOrEqual, ordering => ordering != .lt

namespace Flags

/-- The flags after a comparison and a computation. -/
def of (ordering : Ordering) (status : Status) : Flags := ⟨code ordering ||| status.bit⟩

variable {ordering : Ordering} {status : Status}

theorem blank_eq_of : blank = of .gt .exact := rfl

theorem compare_of (ordering : Ordering) (status : Status) (next : Ordering) :
    (of ordering status).compare next = of next status := by
  cases ordering <;> cases status <;> cases next <;> rfl

theorem clearArithmetic_of (ordering : Ordering) (status : Status) :
    (of ordering status).clearArithmetic = of ordering .exact := by
  cases ordering <;> cases status <;> rfl

theorem set_of (ordering : Ordering) (status : Status) :
    (of ordering .exact).set status.bit = of ordering status := by
  cases ordering <;> cases status <;> rfl

theorem record_of (ordering : Ordering) (status : Status) (result : Option Int) :
    (of ordering status).record result = of ordering (.ofResult result) := by
  cases result with
  | none =>
    rw [record, clearArithmetic_of]
    exact set_of ordering .byZero
  | some value =>
    rw [record, clearArithmetic_of, Status.ofResult]
    by_cases high : value > 255
    · rw [if_pos high, if_pos high]
      exact set_of ordering .above
    · rw [if_neg high, if_neg high]
      by_cases low : value < 0
      · rw [if_pos low, if_pos low]
        exact set_of ordering .below
      · rw [if_neg low, if_neg low]

theorem holds_of (ordering : Ordering) (status : Status) (condition : Condition) :
    (of ordering status).holds condition = condition.admits ordering := by
  cases ordering <;> cases status <;> cases condition <;> rfl

/-- What a mask shows of a byte whose bits were cleared and set again under other masks. -/
theorem and_or_and (bits kept added shown : UInt8) :
    (bits &&& kept ||| added) &&& shown = bits &&& (kept &&& shown) ||| added &&& shown := by
  apply UInt8.toBitVec_inj.mp
  ext place
  simp [Bool.and_or_distrib_right, Bool.and_assoc]

/-- Whatever the flags were, a computation leaves its own status in the place of theirs. -/
theorem record_eq (flags : Flags) (result : Option Int) :
    flags.record result = ⟨flags.bits &&& 0b11100011 ||| (Status.ofResult result).bit⟩ := by
  have exact : flags.clearArithmetic = ⟨flags.bits &&& 0b11100011 ||| Status.exact.bit⟩ := by
    rw [clearArithmetic, Status.bit, UInt8.or_zero]
  cases result with
  | none => rfl
  | some value =>
    rw [record, Status.ofResult]
    split
    · rfl
    · split
      · rfl
      · exact exact

theorem condition_record (flags : Flags) (result : Option Int) :
    (flags.record result).condition = flags.condition := by
  have apart : (Status.ofResult result).bit &&& 0b11 = 0 := by
    cases Status.ofResult result <;> rfl
  rw [record_eq, condition, and_or_and, apart, UInt8.or_zero]
  rfl

/-- After a computation the bit of its status is set, and no bit of another. -/
theorem contains_record (flags : Flags) (result : Option Int) (shown : status ≠ .exact) :
    (flags.record result).contains status.bit = true ↔ Status.ofResult result = status := by
  have cleared : (0b11100011 : UInt8) &&& status.bit = 0 := by cases status <;> rfl
  rw [record_eq, contains, and_or_and, cleared, UInt8.and_zero, UInt8.zero_or]
  cases Status.ofResult result <;> cases status <;> first | exact absurd rfl shown | decide

theorem condition_compare (flags : Flags) (ordering : Ordering) :
    (flags.compare ordering).condition = code ordering := by
  have cleared : (0b11111100 : UInt8) &&& 0b11 = 0 := rfl
  rw [compare, condition, and_or_and, cleared, UInt8.and_zero, UInt8.zero_or]
  cases ordering <;> rfl

theorem contains_compare (flags : Flags) (ordering : Ordering) (status : Status) :
    (flags.compare ordering).contains status.bit = flags.contains status.bit := by
  have kept : (0b11111100 : UInt8) &&& status.bit = status.bit := by cases status <;> rfl
  have apart : code ordering &&& status.bit = 0 := by cases ordering <;> cases status <;> rfl
  rw [compare, contains, and_or_and, kept, apart, UInt8.or_zero, contains]

/-- The condition code is all that a condition depends on. -/
theorem holds_of_condition {flags : Flags} (coded : flags.condition = code ordering)
    (condition : Condition) : flags.holds condition = condition.admits ordering := by
  cases condition <;> simp only [holds, coded] <;> cases ordering <;> rfl

/-- What holds of the flags of every machine: no bit above the underflow bit is set, the condition
code is one of the three, the conditions exclude and complement each other, and at most one bit of a
computation is set. -/
structure Sound (flags : Flags) : Prop where
  small : flags.bits.toNat < 32
  code : flags.condition ≠ 0b11
  oneRelation : [.equal, .less, .greater].countP flags.holds = 1
  notEqual : flags.holds .notEqual = !flags.holds .equal
  lessOrEqual : flags.holds .lessOrEqual = !flags.holds .greater
  greaterOrEqual : flags.holds .greaterOrEqual = !flags.holds .less
  oneStatus : [divideByZero, overflow, underflow].countP flags.contains ≤ 1

theorem sound_of (ordering : Ordering) (status : Status) : (of ordering status).Sound := by
  have holds := funext (holds_of ordering status)
  refine ⟨?_, ?_, ?_, ?_, ?_, ?_, ?_⟩
  · cases ordering <;> cases status <;> decide
  · cases ordering <;> cases status <;> decide
  · rw [holds]
    cases ordering <;> rfl
  · rw [holds]
    rfl
  · rw [holds]
    rfl
  · rw [holds]
    rfl
  · cases ordering <;> cases status <;> decide

end Flags

end Tetrad
