import Tetrad.Source.Location
import Tetrad.Word

namespace Tetrad

/-- A label put at the next instruction. -/
structure Declaration where
  name : String
  location : Location
deriving DecidableEq, Repr, Inhabited

/-- An operand with its source text. -/
structure Argument where
  operand : Operand
  text : String
  location : Location
deriving DecidableEq, Repr, Inhabited

structure InstructionLine where
  form : Form
  arguments : List Argument
  location : Location
deriving DecidableEq, Repr, Inhabited

namespace InstructionLine

def operands (line : InstructionLine) : List Operand := line.arguments.map Argument.operand

def modes (line : InstructionLine) : List Mode := line.operands.map Operand.mode

def layoutBits (line : InstructionLine) : Nat := Tetrad.layoutBits line.modes

/-- The text of an instruction line, with the mnemonic as its table spells it. -/
def text (line : InstructionLine) : String := commandText line.form.mnemonic line.operands

end InstructionLine

inductive Statement where
  | declaration (label : Declaration)
  | instruction (line : InstructionLine)
deriving DecidableEq, Repr, Inhabited

namespace Statement

def instruction? : Statement → Option InstructionLine
  | declaration _ => none
  | instruction line => some line

def text : Statement → String
  | declaration label => "." ++ label.name
  | instruction line => line.text

end Statement

end Tetrad
