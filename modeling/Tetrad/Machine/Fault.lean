import Tetrad.AddressSpace
import Tetrad.Instruction

namespace Tetrad

inductive Fault where
  | truncated (pc : UInt16)
  | outsideRom (pc : UInt16)
  | outOfBounds (pc : UInt16) (address : Nat)
  | malformed (pc : UInt16) (word : UInt32)
  | romTooLarge (size : Nat)
  | output (reason : String)
  | noHandler (pc : UInt16) (instruction : Instruction)
  | noAddress (operand : Operand)
deriving DecidableEq, Repr, Inhabited

def Fault.message : Fault → String
  | truncated pc =>
    "instruction at " ++ Numeral.hex 4 pc.toNat ++ " is cut off by the end of the ROM"
  | outsideRom pc => "pc " ++ Numeral.hex 4 pc.toNat ++ " is outside the loaded ROM"
  | outOfBounds pc address =>
    "address " ++ Numeral.hex 4 address ++ " is out of bounds (pc " ++ Numeral.hex 4 pc.toNat ++ ")"
  | malformed pc word =>
    "malformed instruction " ++ Numeral.hex 8 word.toNat ++ " at " ++ Numeral.hex 4 pc.toNat
  | romTooLarge size =>
    "ROM of " ++ Numeral.decimal size ++ " bytes does not fit in memory ("
      ++ Numeral.decimal romCapacity ++ " bytes available)"
  | output reason => "output error: " ++ reason
  | noHandler pc instruction =>
    "Internal error: no handler for `" ++ instruction.text ++ "` at " ++ Numeral.hex 4 pc.toNat
  | noAddress operand => "Internal error: `" ++ operand.text ++ "` has no effective address"

end Tetrad
