namespace Tetrad

inductive AluOp where
  | add
  | sub
  | mul
  | div
  | xor
  | and
  | or
  | not
deriving DecidableEq, Repr, Inhabited

/-- What the last comparison must have found for a jump to be taken. -/
inductive Condition where
  | always
  | equal
  | notEqual
  | less
  | greater
  | lessOrEqual
  | greaterOrEqual
deriving DecidableEq, Repr, Inhabited

inductive Opcode where
  | halt
  | move
  | load
  | store
  | print
  | compare
  | alu (op : AluOp)
  | jump (condition : Condition)
deriving DecidableEq, Repr, Inhabited

namespace Opcode

/-- The number in the top five bits of a word. -/
def number : Opcode → Nat
  | halt => 0
  | move => 1
  | load => 2
  | print => 3
  | compare => 4
  | jump .less => 5
  | jump .greater => 6
  | jump .always => 7
  | alu .add => 8
  | alu .sub => 9
  | alu .mul => 10
  | alu .div => 11
  | alu .xor => 12
  | alu .and => 13
  | alu .or => 14
  | alu .not => 15
  | jump .lessOrEqual => 16
  | jump .greaterOrEqual => 17
  | store => 18
  | jump .equal => 19
  | jump .notEqual => 20

/-- Every opcode, in the order of its number. -/
def all : List Opcode :=
  [halt, move, load, print, compare, jump .less, jump .greater, jump .always, alu .add, alu .sub,
    alu .mul, alu .div, alu .xor, alu .and, alu .or, alu .not, jump .lessOrEqual,
    jump .greaterOrEqual, store, jump .equal, jump .notEqual]

def ofNumber? (number : Nat) : Option Opcode := all[number]?

/-- The bits that an opcode takes in a word. -/
def width : Nat := 5

def mnemonic : Opcode → String
  | halt => "HLT"
  | move => "MOV"
  | load => "LDR"
  | store => "STR"
  | print => "PRINT"
  | compare => "CMP"
  | alu .add => "ADD"
  | alu .sub => "SUB"
  | alu .mul => "MUL"
  | alu .div => "DIV"
  | alu .xor => "XOR"
  | alu .and => "AND"
  | alu .or => "OR"
  | alu .not => "NOT"
  | jump .always => "JMP"
  | jump .equal => "JMPE"
  | jump .notEqual => "JMPNE"
  | jump .less => "JMPL"
  | jump .greater => "JMPG"
  | jump .lessOrEqual => "JMPLE"
  | jump .greaterOrEqual => "JMPGE"

/-- The mnemonic with only its first letter in upper case. -/
def title (opcode : Opcode) : String :=
  match opcode.mnemonic.toList with
  | [] => ""
  | first :: rest => String.ofList (first :: rest.map Char.toLower)

def isJump : Opcode → Bool
  | jump _ => true
  | _ => false

def isAlu : Opcode → Bool
  | alu _ => true
  | _ => false

theorem ofNumber?_number (opcode : Opcode) : ofNumber? opcode.number = some opcode := by
  rcases opcode with _ | _ | _ | _ | _ | _ | op | condition
  all_goals first | rfl | (cases op <;> rfl) | (cases condition <;> rfl)

end Opcode

end Tetrad
