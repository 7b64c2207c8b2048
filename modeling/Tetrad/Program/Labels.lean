import Tetrad.AddressSpace
import Tetrad.Program.Error
import Tetrad.Program.Statement

/-!
# Labels and their addresses

A label has the address of the instruction that follows it: the base and four bytes for each
instruction above. A program may end at the end of the 16-bit address space, and a label must lie
inside it.
-/

namespace Tetrad

/-- The addresses of the labels of a program that starts at a base. -/
structure Labels where
  base : UInt16
  places : List (String × UInt16)
deriving DecidableEq, Repr, Inhabited

namespace Labels

def address? (labels : Labels) (name : String) : Option UInt16 := labels.places.lookup name

def size (labels : Labels) : Nat := labels.places.length

/-- Order by address, and by name at one address. -/
def precedes (a b : String × UInt16) : Bool := a.2 < b.2 || (a.2 == b.2 && decide (a.1 ≤ b.1))

/-- The labels in the order of their addresses. -/
def entries (labels : Labels) : List (String × UInt16) := labels.places.mergeSort precedes

/-- Adds the labels of statements that start at an address to those known before. -/
def place (address : Nat) (known : List (String × UInt16)) :
    List Statement → Except AssemblyError (List (String × UInt16))
  | [] => .ok known
  | .declaration label :: rest =>
    if address ≥ addressSpace then
      .error ⟨label.location, .programTooLarge ("." ++ label.name)⟩
    else if (known.lookup label.name).isSome then
      .error ⟨label.location, .duplicateLabel label.name⟩
    else place address ((label.name, UInt16.ofNat address) :: known) rest
  | .instruction line :: rest =>
    if line.layoutBits > 32 then
      .error ⟨line.location, .instructionOverflow line.form.mnemonic line.layoutBits⟩
    else if address + 4 > addressSpace then
      .error ⟨line.location, .programTooLarge line.form.mnemonic⟩
    else place (address + 4) known rest

/-- The first operand that refers to a label without an address. -/
def undefined? (labels : Labels) (arguments : List Argument) : Option AssemblyError :=
  arguments.findSome? fun argument =>
    match argument.operand.label? with
    | none => none
    | some name =>
      if (labels.address? name).isSome then none
      else some ⟨argument.location, .undefinedLabel name⟩

/-- The labels of a program, every reference to a label being checked. -/
def build (statements : List Statement) (base : UInt16) : Except AssemblyError Labels := do
  let labels : Labels := ⟨base, ← place base.toNat [] statements⟩
  let arguments := (statements.filterMap Statement.instruction?).flatMap InstructionLine.arguments
  match labels.undefined? arguments with
  | some error => throw error
  | none => return labels

end Labels

end Tetrad
