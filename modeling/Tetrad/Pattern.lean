import Tetrad.Instruction

namespace Tetrad

inductive PartPattern (α : Type) where
  | any
  | exact (value : α)
  | satisfies (test : α → Bool)
deriving Inhabited

def PartPattern.fits {α : Type} [DecidableEq α] (part : α) : PartPattern α → Bool
  | any => true
  | exact value => part = value
  | satisfies test => test part

inductive Pattern where
  | any
  | form (opcode : Opcode) (operands : List (PartPattern Operand))
  | load (opcode : PartPattern Opcode) (target : PartPattern Register)
      (source : PartPattern Operand)
  | store (source : PartPattern Register) (destination : PartPattern Operand)
  | alu (opcode : PartPattern Opcode) (target : PartPattern Register)
      (source : PartPattern Operand)
  | compare (register : PartPattern Register) (source : PartPattern Operand)
  | jump (opcode : PartPattern Opcode) (target : PartPattern Operand)
  | print (register : PartPattern Register)
  | halt
deriving Inhabited

namespace Pattern

def fits (instruction : Instruction) (pattern : Pattern) : Bool :=
  let code := instruction.opcode
  match pattern, instruction.operands with
  | any, _ => true
  | form opcode parts, operands =>
    code = opcode && parts.length == operands.length
      && (parts.zip operands).all fun (part, operand) => part.fits operand
  | load opcode target source, [.register register, operand] =>
    (code = .move || code = .load)
      && opcode.fits code && target.fits register && source.fits operand
  | store source destination, [.register register, operand] =>
    code = .store && source.fits register && destination.fits operand
  | alu opcode target source, [.register register, operand] =>
    code.isAlu && opcode.fits code && target.fits register && source.fits operand
  | compare part source, [.register register, operand] =>
    code = .compare && part.fits register && source.fits operand
  | jump opcode target, [operand] => code.isJump && opcode.fits code && target.fits operand
  | print part, [.register register] => code = .print && part.fits register
  | halt, [] => code = .halt
  | _, _ => false

/-- The instructions start with a run that fits the patterns one by one. -/
def startsWith : List Pattern → List Instruction → Bool
  | [], _ => true
  | _ :: _, [] => false
  | pattern :: patterns, instruction :: rest =>
    pattern.fits instruction && startsWith patterns rest

/-- The least index at which a run of instructions fits the patterns. -/
def find? (patterns : List Pattern) : List Instruction → Option Nat
  | [] => if startsWith patterns [] then some 0 else none
  | instruction :: rest =>
    if startsWith patterns (instruction :: rest) then some 0
    else (find? patterns rest).map (· + 1)

end Pattern

inductive PatternFailure where
  | missing
  | count (expected found : Nat)
  | mismatch (index : Nat) (pattern : Pattern) (instruction : Instruction)
deriving Inhabited

namespace Pattern

/-- The least index at which an instruction does not fit its pattern, with both. -/
def mismatch? (patterns : List Pattern) (instructions : List Instruction) :
    Option PatternFailure :=
  ((patterns.zip instructions).zipIdx.find? fun ((pattern, instruction), _) =>
      !pattern.fits instruction).map
    fun ((pattern, instruction), index) => .mismatch index pattern instruction

/-- Checks that some run of instructions fits the patterns. -/
def checkOccurs (patterns : List Pattern) (instructions : List Instruction) :
    Except PatternFailure Unit :=
  if (find? patterns instructions).isSome then .ok () else .error .missing

/-- Checks that all instructions fit the patterns one by one. -/
def checkAll (patterns : List Pattern) (instructions : List Instruction) :
    Except PatternFailure Unit :=
  if instructions.length ≠ patterns.length then
    .error (.count patterns.length instructions.length)
  else match mismatch? patterns instructions with
    | some failure => .error failure
    | none => .ok ()

end Pattern

end Tetrad
