import Tetrad.Mode
import Tetrad.Register

namespace Tetrad

/-- The place behind an indirect operand. -/
inductive Address where
  | absolute (value : UInt16)
  | label (name : String)
deriving DecidableEq, Repr, Inhabited

/-- An operand: one addressing mode with its values. -/
inductive Operand where
  | immediate (value : UInt16)
  | direct (address : UInt16)
  | indirect (pointer : Address)
  | register (register : Register)
  | registerIndirect (register : Register)
  | registerRelative (offset : UInt16) (register : Register)
  | indexedScaled (base : UInt16) (scale : UInt8) (register : Register)
  | pcRelative (offset : UInt16)
  | label (name : String)
deriving DecidableEq, Repr, Inhabited

/-- The text of an address: its decimal numeral, or a dot and the label. -/
def Address.text : Address → String
  | absolute value => Numeral.decimal value.toNat
  | label name => "." ++ name

namespace Operand

def mode : Operand → Mode
  | immediate _ => .immediate
  | direct _ => .direct
  | indirect _ => .indirect
  | register _ => .register
  | registerIndirect _ => .registerIndirect
  | registerRelative _ _ => .registerRelative
  | indexedScaled _ _ _ => .indexedScaled
  | pcRelative _ => .pcRelative
  | label _ => .label

/-- The label that an operand refers to, bare or through an indirection. -/
def label? : Operand → Option String
  | label name => some name
  | indirect (.label name) => some name
  | _ => none

/-- Puts addresses in the place of labels: a bare label becomes a direct address, an indirect one
stays indirect. A label without an address leaves no operand. -/
def relocate? (address? : String → Option UInt16) : Operand → Option Operand
  | label name => (address? name).map direct
  | indirect (.label name) => (address? name).map fun address => indirect (.absolute address)
  | operand => some operand

/-- The text of an operand, as source text writes it. -/
def text : Operand → String
  | immediate value => "#" ++ Numeral.decimal value.toNat
  | direct address => Numeral.decimal address.toNat
  | indirect pointer => "(" ++ pointer.text ++ ")"
  | register r => r.text
  | registerIndirect r => "(" ++ r.text ++ ")"
  | registerRelative offset r => Numeral.decimal offset.toNat ++ "+" ++ r.text
  | indexedScaled base scale r =>
    Numeral.decimal base.toNat ++ "+" ++ Numeral.decimal scale.toNat ++ "*" ++ r.text
  | pcRelative offset => "#(" ++ Numeral.decimal offset.toNat ++ ")"
  | label name => "." ++ name

end Operand

/-- A mnemonic and its operands on one line. -/
def commandText (mnemonic : String) (operands : List Operand) : String :=
  match operands with
  | [] => mnemonic
  | _ => mnemonic ++ " " ++ String.intercalate ", " (operands.map Operand.text)

end Tetrad
