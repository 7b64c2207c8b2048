import Tetrad.Operand

/-!
# Operand shapes: the nine ways to write an operand

A shape is an operand as written, with numbers of any size. Each addressing mode has one grammar,
and no text belongs to two of them. Whether the numbers fit their fields is asked afterwards.
-/

namespace Tetrad

/-- The name of a label: ASCII letters, digits and underscores, not starting with a digit. -/
def isLabelName : List Char → Bool
  | [] => false
  | first :: rest =>
    (first.isAlpha || first == '_') && rest.all fun c => c.isAlphanum || c == '_'

/-- A register as written: one with a name of its own, or `r` and a number. -/
inductive RegisterName where
  | named (register : Register)
  | numbered (number : Nat)
deriving DecidableEq, Repr, Inhabited

namespace RegisterName

def readBare? (name : List Char) : Option RegisterName :=
  match Register.ofName? name, name with
  | some register, _ => some (named register)
  | none, 'r' :: digits => (Numeral.read? 10 digits).map numbered
  | none, 'R' :: digits => (Numeral.read? 10 digits).map numbered
  | none, _ => none

/-- Reads a register name, with or without one `$` in front. -/
def read? : List Char → Option RegisterName
  | '$' :: name => readBare? name
  | name => readBare? name

end RegisterName

/-- Reads a decimal number, or a hexadecimal one after `0x` or `0X`. -/
def readNumber? : List Char → Option Nat
  | '0' :: 'x' :: digits => Numeral.read? 16 digits
  | '0' :: 'X' :: digits => Numeral.read? 16 digits
  | digits => Numeral.read? 10 digits

/-- What stands between two marks at the ends of a text. -/
def enclosed? (opening closing : Char) : List Char → Option (List Char)
  | [] => none
  | first :: rest =>
    if first = opening ∧ rest.getLast? = some closing then some rest.dropLast else none

/-- What stands before and after the first mark in a text. -/
def splitFirst? (mark : Char) : List Char → Option (List Char × List Char)
  | [] => none
  | c :: rest =>
    if c = mark then some ([], rest)
    else (splitFirst? mark rest).map fun (before, after) => (c :: before, after)

/-- What follows a mark at the start of a text. -/
def after? (mark : Char) : List Char → Option (List Char)
  | [] => none
  | c :: rest => if c = mark then some rest else none

/-- Reads a label with its dot. -/
def readLabel? (text : List Char) : Option (List Char) := (after? '.' text).filter isLabelName

/-- An operand as written. -/
inductive Shape where
  | immediate (value : Nat)
  | direct (address : Nat)
  | indirect (address : Nat)
  | indirectLabel (name : List Char)
  | register (name : RegisterName)
  | registerIndirect (name : RegisterName)
  | registerRelative (offset : Nat) (name : RegisterName)
  | indexedScaled (base scale : Nat) (name : RegisterName)
  | pcRelative (offset : Nat)
  | label (name : List Char)
deriving DecidableEq, Repr, Inhabited

namespace Shape

/-- Reads `#10`. -/
def immediate? (text : List Char) : Option Shape :=
  ((after? '#' text).bind readNumber?).map immediate

/-- Reads `10` or `[10]`. -/
def direct? (text : List Char) : Option Shape :=
  (readNumber? ((enclosed? '[' ']' text).getD text)).map direct

/-- Reads `(10)` or `(.name)`. -/
def indirect? (text : List Char) : Option Shape := do
  let inner ← enclosed? '(' ')' text
  match readNumber? inner with
  | some address => some (indirect address)
  | none => (readLabel? inner).map indirectLabel

/-- Reads `$r1`. -/
def register? (text : List Char) : Option Shape := (RegisterName.read? text).map register

/-- Reads `($r1)`. -/
def registerIndirect? (text : List Char) : Option Shape :=
  ((enclosed? '(' ')' text).bind RegisterName.read?).map registerIndirect

/-- Reads `4+$r1`. -/
def registerRelative? (text : List Char) : Option Shape := do
  let (before, after) ← splitFirst? '+' text
  return registerRelative (← readNumber? before) (← RegisterName.read? after)

/-- Reads `16+2*$r3`. -/
def indexedScaled? (text : List Char) : Option Shape := do
  let (before, after) ← splitFirst? '+' text
  let (factor, name) ← splitFirst? '*' after
  return indexedScaled (← readNumber? before) (← readNumber? factor) (← RegisterName.read? name)

/-- Reads `#(8)`. -/
def pcRelative? (text : List Char) : Option Shape :=
  (((after? '#' text).bind (enclosed? '(' ')')).bind readNumber?).map pcRelative

/-- Reads `.name`. -/
def label? (text : List Char) : Option Shape := (readLabel? text).map label

/-- One grammar for each addressing mode. -/
def grammars : List (List Char → Option Shape) :=
  [immediate?, direct?, indirect?, register?, registerIndirect?, registerRelative?,
    indexedScaled?, pcRelative?, label?]

def read? (text : List Char) : Option Shape := grammars.findSome? (· text)

end Shape

end Tetrad
