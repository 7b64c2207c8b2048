import Tetrad.Bits
import Tetrad.Instruction
import Tetrad.Table

/-!
# Words: instructions in 32 bits

A word holds the opcode in five bits, the tag of a mode in three, and then the fields of the
operands, each register in 4 bits, each value in 16, a scale in 4 and a scaled base in 12.
-/

namespace Tetrad

inductive WordError where
  | overflow (bits : Nat)
  | arityMismatch (expected found : Nat)
  | unresolvedLabel
  | unknownOpcode (number : Nat)
  | illegalMode (tag position : Nat)
  | mixedModes
deriving DecidableEq, Repr, Inhabited

def WordError.message : WordError → String
  | overflow bits => "operands need " ++ Numeral.decimal bits ++ " bits, a word holds 32"
  | arityMismatch expected found =>
    "expected " ++ Numeral.decimal expected ++ " operand(s), found " ++ Numeral.decimal found
  | unresolvedLabel => "label operands must be relocated before encoding"
  | unknownOpcode number => "undefined opcode " ++ Numeral.hex 2 number
  | illegalMode tag position =>
    "mode tag " ++ Numeral.decimal tag ++ " is not valid for operand " ++ Numeral.decimal position
  | mixedModes => "free operands must share one addressing mode"

/-- The bits of a tag. -/
def tagWidth : Nat := 3

/-- The bits in front of the operands. -/
def headerWidth : Nat := Opcode.width + tagWidth

/-- The bits that a word needs for operands of these modes. -/
def layoutBits (modes : List Mode) : Nat :=
  headerWidth + (modes.map Mode.width).foldr (· + ·) 0

def Register.field (register : Register) : Field := ⟨register.index.val, 4⟩

def valueField (value : UInt16) : Field := ⟨value.toNat, 16⟩

/-- The fields of an operand; a label has none before it is relocated. -/
def Operand.fields? : Operand → Option (List Field)
  | immediate value => some [valueField value]
  | direct address => some [valueField address]
  | pcRelative offset => some [valueField offset]
  | indirect (.absolute address) => some [valueField address]
  | register r => some [r.field]
  | registerIndirect r => some [r.field]
  | registerRelative offset r => some [r.field, valueField offset]
  | indexedScaled base scale r => some [r.field, ⟨scale.toNat, 4⟩, ⟨base.toNat, 12⟩]
  | indirect (.label _) => none
  | label _ => none

/-- The first operand whose mode its position does not admit: its tag and its position. -/
def Form.firstIllegal? (form : Form) (modes : List Mode) : Option (Nat × Nat) :=
  ((form.operands.zip modes).zipIdx.find? fun ((set, mode), _) => !set.admits mode).map
    fun ((_, mode), position) => (mode.tag, position)

/-- All tags are the same. -/
def sameTags : List Nat → Bool
  | [] => true
  | first :: rest => rest.all (· == first)

/-- The tag of an instruction's word, if the form takes the operands and a word has room for them. -/
def Instruction.check (instruction : Instruction) (form : Form) : Except WordError Nat :=
  let modes := instruction.modes
  if instruction.operands.length ≠ form.arity then
    .error (.arityMismatch form.arity instruction.operands.length)
  else
    match form.firstIllegal? modes with
    | some (tag, position) => .error (.illegalMode tag position)
    | none =>
      if !sameTags ((form.atFree modes).map Mode.tag) then .error .mixedModes
      else if layoutBits modes > 32 then .error (.overflow (layoutBits modes))
      else .ok (form.tag modes)

/-- The fields of a word: the opcode, the tag and those of the operands. -/
def wordFields (opcode : Opcode) (tag : Nat) (fields : List (List Field)) : List Field :=
  ⟨opcode.number, Opcode.width⟩ :: ⟨tag, tagWidth⟩ :: fields.flatten

/-- The word of an instruction in the layout of a form. -/
def Instruction.encode (instruction : Instruction) (form : Form) : Except WordError UInt32 :=
  match instruction.check form with
  | .error reason => .error reason
  | .ok tag =>
    match instruction.operands.mapM Operand.fields? with
    | none => .error .unresolvedLabel
    | some fields => .ok (UInt32.ofNat (Field.pack 32 (wordFields instruction.opcode tag fields)))

/-- The mode of an operand in a word with this tag: a position with one mode has that mode, a label
being stored as a direct address, and a free position has the mode of the tag if it admits it. -/
def ModeSet.decoded? (set : ModeSet) (tag : Nat) : Option Mode :=
  match set.single? with
  | some .label => some .direct
  | some mode => some mode
  | none => (Mode.ofTag? tag).filter set.admits

namespace FieldSource

variable {σ : Type} [FieldSource σ]

def takeRegister (source : σ) : Register × σ :=
  let (index, rest) := take source 4
  (⟨⟨index % 16, Nat.mod_lt index (by decide)⟩⟩, rest)

def takeValue (source : σ) : UInt16 × σ :=
  let (value, rest) := take source 16
  (UInt16.ofNat value, rest)

/-- Reads an operand of a mode, a label as a direct address. -/
def takeOperand (source : σ) : Mode → Operand × σ
  | .immediate => (takeValue source).map .immediate id
  | .direct => (takeValue source).map .direct id
  | .label => (takeValue source).map .direct id
  | .indirect => (takeValue source).map (fun address => .indirect (.absolute address)) id
  | .pcRelative => (takeValue source).map .pcRelative id
  | .register => (takeRegister source).map .register id
  | .registerIndirect => (takeRegister source).map .registerIndirect id
  | .registerRelative =>
    let (r, rest) := takeRegister source
    (takeValue rest).map (.registerRelative · r) id
  | .indexedScaled =>
    let (r, rest) := takeRegister source
    let (scale, rest) := take rest 4
    let (base, rest) := take rest 12
    (.indexedScaled (UInt16.ofNat base) (UInt8.ofNat scale) r, rest)

/-- Reads an operand if the word still has the bits for it. -/
def readOperand (source : σ) (mode : Mode) : Except WordError Operand × σ :=
  if mode.width > room source then (.error (.overflow (used source + mode.width)), source)
  else (takeOperand source mode).map .ok id

/-- Reads one operand for each set, the first at the given position. -/
def readOperands (source : σ) (tag position : Nat) :
    List ModeSet → Except WordError (List Operand) × σ
  | [] => (.ok [], source)
  | set :: sets =>
    match set.decoded? tag with
    | none => (.error (.illegalMode tag position), source)
    | some mode =>
      match readOperand source mode with
      | (.error reason, rest) => (.error reason, rest)
      | (.ok operand, rest) =>
        let (others, last) := readOperands rest tag (position + 1) sets
        (others.map (operand :: ·), last)

end FieldSource

/-- The instruction of the word that is read, and where the reading ended. -/
def Table.read {σ : Type} [FieldSource σ] (table : Table) (source : σ) :
    Except WordError Instruction × σ :=
  let (number, source) := FieldSource.take source Opcode.width
  match (Opcode.ofNumber? number).bind table.byOpcode? with
  | none => (.error (.unknownOpcode number), source)
  | some form =>
    let (tag, source) := FieldSource.take source tagWidth
    let (operands, source) := FieldSource.readOperands source tag 0 form.operands
    (operands.map (⟨form.opcode, ·⟩), source)

/-- The instruction of a word. -/
def Table.decode (table : Table) (word : UInt32) : Except WordError Instruction :=
  (table.read (Cursor.ofWord word)).1

end Tetrad
