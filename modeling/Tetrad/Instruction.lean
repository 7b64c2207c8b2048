import Tetrad.Opcode
import Tetrad.Operand

namespace Tetrad

structure Instruction where
  opcode : Opcode
  operands : List Operand
deriving DecidableEq, Repr, Inhabited

namespace Instruction

def modes (instruction : Instruction) : List Mode := instruction.operands.map Operand.mode

/-- The text of an instruction, with the opcode's own mnemonic. -/
def text (instruction : Instruction) : String :=
  commandText instruction.opcode.mnemonic instruction.operands

end Instruction

end Tetrad
