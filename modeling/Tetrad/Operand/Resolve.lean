import Tetrad.Operand.Shape

namespace Tetrad

inductive ResolveError where
  | unrecognized
  | valueOutOfRange
  | registerOutOfRange
deriving DecidableEq, Repr, Inhabited

/-- A number that is at most the given one. -/
def bounded (most value : Nat) : Except ResolveError Nat :=
  if value ≤ most then .ok value else .error .valueOutOfRange

theorem bounded_eq_ok_iff {most value result : Nat} :
    bounded most value = .ok result ↔ value ≤ most ∧ value = result := by
  unfold bounded
  split
  · next fits => simp [fits]
  · next wide => simp [wide]

theorem bounded_eq_error_iff {most value : Nat} {reason : ResolveError} :
    bounded most value = .error reason ↔ most < value ∧ reason = .valueOutOfRange := by
  unfold bounded
  split
  · next fits => simp [Nat.not_lt.mpr fits]
  · next wide => simp [Nat.lt_of_not_le wide, eq_comm]

def halfWord (value : Nat) : Except ResolveError UInt16 := (bounded 0xFFFF value).map UInt16.ofNat

/-- The register of a name; `r` takes the numbers of general registers. -/
def RegisterName.resolve : RegisterName → Except ResolveError Register
  | named register => .ok register
  | numbered number =>
    match Register.general? number with
    | some register => .ok register
    | none => .error .registerOutOfRange

def Shape.resolve : Shape → Except ResolveError Operand
  | immediate value => (halfWord value).map .immediate
  | direct address => (halfWord address).map .direct
  | indirect address => (halfWord address).map fun value => .indirect (.absolute value)
  | indirectLabel name => .ok (.indirect (.label (String.ofList name)))
  | register name => name.resolve.map .register
  | registerIndirect name => name.resolve.map .registerIndirect
  | registerRelative offset name => do
    let offset ← halfWord offset
    return .registerRelative offset (← name.resolve)
  | indexedScaled base scale name => do
    let base ← bounded 0xFFF base
    let scale ← bounded 0xF scale
    return .indexedScaled (UInt16.ofNat base) (UInt8.ofNat scale) (← name.resolve)
  | pcRelative offset => (halfWord offset).map .pcRelative
  | label name => .ok (.label (String.ofList name))

def Operand.resolve (text : String) : Except ResolveError Operand :=
  match Shape.read? text.toList with
  | none => .error .unrecognized
  | some shape => shape.resolve

end Tetrad
