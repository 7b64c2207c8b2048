import Tetrad.Operand.Resolve
import Tetrad.Program.Error
import Tetrad.Program.Statement
import Tetrad.Source.Line

namespace Tetrad

open Source

def Declaration.parse (field : Lexeme) : Except AssemblyError Declaration :=
  match readLabel? field.text.toList with
  | some name => .ok ⟨String.ofList name, field.location⟩
  | none => .error ⟨field.location, .unexpectedIdentifier field.text⟩

def Argument.parse (field : Lexeme) : Except AssemblyError Argument :=
  match Operand.resolve field.text with
  | .ok operand => .ok ⟨operand, field.text, field.location⟩
  | .error .registerOutOfRange => .error ⟨field.location, .registerOutOfRange field.text⟩
  | .error _ => .error ⟨field.location, .invalidOperand field.text⟩

namespace InstructionLine

/-- The first operand whose mode its position does not accept. -/
def misplaced? (form : Form) (arguments : List Argument) : Option AssemblyError :=
  ((form.operands.zip arguments).zipIdx.find? fun ((set, argument), _) =>
      !set.contains argument.operand.mode).map
    fun ((_, argument), position) =>
      ⟨argument.location,
        .invalidMode form.mnemonic argument.text (position + 1) argument.operand.mode⟩

/-- The first free operand whose tag differs from that of the first free operand of all. -/
def inconsistent? (form : Form) (arguments : List Argument) : Option AssemblyError :=
  match form.atFree arguments with
  | [] => none
  | first :: others =>
    (others.find? (·.operand.mode.tag != first.operand.mode.tag)).map fun other =>
      ⟨other.location,
        .inconsistentModes form.mnemonic other.text first.operand.mode other.operand.mode⟩

/-- The instruction of a form at a place, with the given operand fields; `last` tells that no field
follows in the whole source. -/
def parse (form : Form) (location : Location) (operands : List Lexeme) (last : Bool) :
    Except AssemblyError InstructionLine := do
  if operands.length < form.arity ∧ last then
    throw ⟨location, .unexpectedEnd form.mnemonic form.arity⟩
  if operands.length ≠ form.arity then
    throw ⟨location, .arityMismatch form.mnemonic form.arity operands.length⟩
  let arguments ← operands.mapM Argument.parse
  match misplaced? form arguments with
  | some error => throw error
  | none => pure ()
  match inconsistent? form arguments with
  | some error => throw error
  | none => pure ()
  return ⟨form, arguments, location⟩

end InstructionLine

namespace Statement

/-- The statements of one line; `last` tells that no later line has a field. -/
def parseRow (table : Table) (last : Bool) : List Lexeme → Except AssemblyError (List Statement)
  | [] => .ok []
  | first :: rest =>
    if (after? '.' first.text.toList).isSome then
      (first :: rest).mapM fun field => (Declaration.parse field).map declaration
    else match table.lookup? first.text with
      | some form => do
        return [instruction (← InstructionLine.parse form first.location rest last)]
      | none => .error ⟨first.location, .unexpectedIdentifier first.text⟩

/-- Each row with whether all rows below it are blank. -/
def markLast (rows : List (List Lexeme)) : List (List Lexeme × Bool) :=
  (rows.foldr
    (fun row (marked, last) => ((row, last) :: marked, last && row.isEmpty))
    ([], true)).1

/-- The statements of the rows of a source. -/
def parseRows (table : Table) (rows : List (List Lexeme)) :
    Except AssemblyError (List Statement) := do
  return (← (markLast rows).mapM fun (row, last) => parseRow table last row).flatten

def parse (table : Table) (source : String) : Except AssemblyError (List Statement) :=
  parseRows table (rows source)

end Statement

end Tetrad
