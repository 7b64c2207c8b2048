import Tetrad.Program.Labels
import Tetrad.Program.Parse

namespace Tetrad

/-- A byte of a word, counted from the most significant one. -/
def wordByte (word : UInt32) (position : Nat) : UInt8 :=
  UInt8.ofNat (word.toNat >>> (8 * (3 - position)))

/-- The bytes of a word, most significant first. -/
def wordBytes (word : UInt32) : List UInt8 :=
  [wordByte word 0, wordByte word 1, wordByte word 2, wordByte word 3]

namespace InstructionLine

/-- The operand with an address in the place of its label. -/
def relocateArgument (labels : Labels) (argument : Argument) : Except AssemblyError Operand :=
  match argument.operand.relocate? labels.address? with
  | some operand => .ok operand
  | none => .error ⟨argument.location, .undefinedLabel (argument.operand.label?.getD "")⟩

/-- The instruction with addresses in the place of its labels. -/
def relocate (labels : Labels) (line : InstructionLine) : Except AssemblyError Instruction :=
  (line.arguments.mapM (relocateArgument labels)).map fun operands => ⟨line.form.opcode, operands⟩

/-- The word of an instruction line. -/
def encode (labels : Labels) (line : InstructionLine) : Except AssemblyError UInt32 := do
  let instruction ← line.relocate labels
  match instruction.encode line.form with
  | .ok word => return word
  | .error (.overflow bits) =>
    throw ⟨line.location, .instructionOverflow line.form.mnemonic bits⟩
  | .error reason => throw ⟨line.location, .unencodable line.form.mnemonic reason⟩

end InstructionLine

/-- A program: what its source says, with the addresses of its labels. -/
structure Program where
  statements : List Statement
  labels : Labels
deriving DecidableEq, Repr, Inhabited

namespace Program

def instructions (program : Program) : List InstructionLine :=
  program.statements.filterMap Statement.instruction?

/-- The bytes of a program: those of its instructions, labels taking none. -/
def bytes (program : Program) : Except AssemblyError (List UInt8) := do
  return (← program.instructions.mapM (InstructionLine.encode program.labels)).flatMap wordBytes

/-- The program of a source at a base address. -/
def assemble (table : Table) (base : UInt16) (source : String) : Except AssemblyError Program := do
  let statements ← Statement.parse table source
  return ⟨statements, ← Labels.build statements base⟩

/-- The program of a source for the machine as delivered. -/
def ofSource (source : String) : Except AssemblyError Program :=
  assemble Table.standard loadAddress source

end Program

end Tetrad
