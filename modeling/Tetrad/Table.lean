import Tetrad.Mode.Set
import Tetrad.Opcode

/-!
# Instruction tables: mnemonics, opcodes and the modes of each operand

A table is data: the assembler finds a form by its mnemonic and the decoder by its opcode. In both
the first form that fits wins.
-/

namespace Tetrad

/-- Two spellings that differ at most in the case of ASCII letters. -/
def sameLetters (a b : String) : Bool := a.toList.map Char.toLower == b.toList.map Char.toLower

/-- One form of instruction: its mnemonic, its opcode and the modes that each operand accepts. -/
structure Form where
  mnemonic : String
  opcode : Opcode
  operands : List ModeSet
deriving DecidableEq, Repr, Inhabited

namespace Form

def arity (form : Form) : Nat := form.operands.length

/-- The positions whose mode is left to the tag of the word. -/
def freePositions (form : Form) : List Nat :=
  (form.operands.zipIdx.filter (·.1.isFree)).map (·.2)

/-- The items that stand at the free positions, in order. -/
def atFree {α : Type} (form : Form) (items : List α) : List α :=
  ((form.operands.zip items).filter (·.1.isFree)).map (·.2)

/-- The tag for operands of these modes: that of the first free operand, of the first operand if
none is free, and 0 without operands. -/
def tag (form : Form) (modes : List Mode) : Nat :=
  let deciding := if form.operands.any ModeSet.isFree then form.atFree modes else modes
  deciding.head?.elim 0 Mode.tag

end Form

/-- The instructions that an assembler and a machine agree on. -/
structure Table where
  forms : List Form
deriving DecidableEq, Repr, Inhabited

namespace Table

/-- The form of a mnemonic in any case of its ASCII letters. -/
def lookup? (table : Table) (mnemonic : String) : Option Form :=
  table.forms.find? (sameLetters ·.mnemonic mnemonic)

theorem mem_of_lookup? {table : Table} {mnemonic : String} {form : Form}
    (found : table.lookup? mnemonic = some form) :
    form ∈ table.forms ∧ sameLetters form.mnemonic mnemonic = true := by
  have letters := List.find?_some found
  exact ⟨List.mem_of_find?_eq_some found, letters⟩

theorem lookup?_congr {first second : String} (table : Table)
    (letters : sameLetters first second = true) : table.lookup? first = table.lookup? second := by
  have lowered := eq_of_beq letters
  unfold lookup? sameLetters
  rw [lowered]

def byOpcode? (table : Table) (opcode : Opcode) : Option Form :=
  table.forms.find? (·.opcode = opcode)

def registerOnly : ModeSet := .ofList [.register]

/-- A literal value or a register. -/
def valueModes : ModeSet := .ofList [.immediate, .register]

/-- A place in memory. -/
def memoryModes : ModeSet :=
  .ofList [.direct, .indirect, .registerIndirect, .registerRelative, .indexedScaled, .label]

/-- Where a jump may lead. -/
def targetModes : ModeSet :=
  .ofList [.direct, .indirect, .registerIndirect, .registerRelative, .pcRelative, .label]

private def plainForm (opcode : Opcode) (operands : List ModeSet) : Form :=
  ⟨opcode.mnemonic, opcode, operands⟩

/-- The table of the machine as delivered. -/
def standard : Table where
  forms :=
    [plainForm .halt [],
      plainForm .move [registerOnly, valueModes],
      plainForm .load [registerOnly, memoryModes ∪ valueModes],
      plainForm .store [registerOnly, memoryModes],
      plainForm .print [registerOnly],
      plainForm .compare [registerOnly, valueModes],
      plainForm (.alu .add) [registerOnly, valueModes],
      plainForm (.alu .sub) [registerOnly, valueModes],
      plainForm (.alu .mul) [registerOnly, valueModes],
      plainForm (.alu .div) [registerOnly, valueModes],
      plainForm (.alu .xor) [registerOnly, valueModes],
      plainForm (.alu .and) [registerOnly, valueModes],
      plainForm (.alu .or) [registerOnly, valueModes],
      plainForm (.alu .not) [registerOnly, valueModes],
      plainForm (.jump .always) [targetModes],
      plainForm (.jump .equal) [targetModes],
      plainForm (.jump .notEqual) [targetModes],
      plainForm (.jump .less) [targetModes],
      plainForm (.jump .greater) [targetModes],
      plainForm (.jump .lessOrEqual) [targetModes],
      plainForm (.jump .greaterOrEqual) [targetModes]]

end Table

end Tetrad
