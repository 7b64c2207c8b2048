import Tetrad.Numeral
import Tetrad.Opcode

/-!
# Flags: the last comparison and the last computation in one byte

Bits 0 and 1 hold a condition code: 01 equal, 10 less, 00 greater. Bits 2 to 4 tell of a division
by zero, an overflow and an underflow.
-/

namespace Tetrad

structure Flags where
  bits : UInt8
deriving DecidableEq, Repr, Inhabited

namespace Flags

def blank : Flags := ⟨0⟩

/-- The bit of a division by zero. -/
def divideByZero : UInt8 := 0b00100

/-- The bit of a result above 255. -/
def overflow : UInt8 := 0b01000

/-- The bit of a result below 0. -/
def underflow : UInt8 := 0b10000

def code : Ordering → UInt8
  | .eq => 0b01
  | .lt => 0b10
  | .gt => 0b00

def condition (flags : Flags) : UInt8 := flags.bits &&& 0b11

def contains (flags : Flags) (bit : UInt8) : Bool := flags.bits &&& bit == bit

def set (flags : Flags) (bit : UInt8) : Flags := ⟨flags.bits ||| bit⟩

def clearArithmetic (flags : Flags) : Flags := ⟨flags.bits &&& 0b11100011⟩

def compare (flags : Flags) (ordering : Ordering) : Flags :=
  ⟨flags.bits &&& 0b11111100 ||| code ordering⟩

/-- Records what a computation gave, `none` standing for a division by zero. -/
def record (flags : Flags) : Option Int → Flags
  | none => flags.clearArithmetic.set divideByZero
  | some result =>
    if result > 255 then flags.clearArithmetic.set overflow
    else if result < 0 then flags.clearArithmetic.set underflow
    else flags.clearArithmetic

def holds (flags : Flags) : Condition → Bool
  | .always => true
  | .equal => flags.condition == code .eq
  | .notEqual => flags.condition != code .eq
  | .less => flags.condition == code .lt
  | .greater => flags.condition == code .gt
  | .lessOrEqual => flags.condition == code .eq || flags.condition == code .lt
  | .greaterOrEqual => flags.condition == code .gt || flags.condition == code .eq

/-- The written form of the flags, with at least five binary digits. -/
def text (flags : Flags) : String :=
  "Flags(0b" ++ Numeral.padded 2 5 flags.bits.toNat ++ ")"

end Flags

end Tetrad
