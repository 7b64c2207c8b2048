namespace Tetrad

/-- How an operand names its value or its place. -/
inductive Mode where
  | immediate
  | direct
  | indirect
  | register
  | registerIndirect
  | registerRelative
  | indexedScaled
  | pcRelative
  | label
deriving DecidableEq, Repr, Inhabited

namespace Mode

/-- Every mode, in the order of the set bits. -/
def all : List Mode :=
  [immediate, direct, indirect, register, registerIndirect, registerRelative, indexedScaled,
    pcRelative, label]

/-- The position of a mode in `all`, which is also its bit in a set of modes. -/
def index : Mode → Fin 9
  | immediate => 0
  | direct => 1
  | indirect => 2
  | register => 3
  | registerIndirect => 4
  | registerRelative => 5
  | indexedScaled => 6
  | pcRelative => 7
  | label => 8

/-- The three-bit tag of a word; a label becomes a direct address, so the two share a tag. -/
def tag : Mode → Nat
  | immediate => 0
  | register => 1
  | registerRelative => 2
  | pcRelative => 3
  | direct => 4
  | label => 4
  | indirect => 5
  | registerIndirect => 6
  | indexedScaled => 7

/-- The mode that a tag names in a word. -/
def ofTag? : Nat → Option Mode
  | 0 => some immediate
  | 1 => some register
  | 2 => some registerRelative
  | 3 => some pcRelative
  | 4 => some direct
  | 5 => some indirect
  | 6 => some registerIndirect
  | 7 => some indexedScaled
  | _ => none

/-- The bits that an operand of this mode takes in a word. -/
def width : Mode → Nat
  | register => 4
  | registerIndirect => 4
  | immediate => 16
  | direct => 16
  | indirect => 16
  | pcRelative => 16
  | label => 16
  | registerRelative => 20
  | indexedScaled => 20

def name : Mode → String
  | immediate => "immediate"
  | direct => "direct"
  | indirect => "indirect"
  | register => "register"
  | registerIndirect => "register-indirect"
  | registerRelative => "register-relative"
  | indexedScaled => "indexed-scaled"
  | pcRelative => "pc-relative"
  | label => "label"

/-- The name of a mode in the written form of a set. -/
def title : Mode → String
  | immediate => "Immediate"
  | direct => "Direct"
  | indirect => "Indirect"
  | register => "RegisterDirect"
  | registerIndirect => "RegisterIndirect"
  | registerRelative => "RegisterRelative"
  | indexedScaled => "IndexedScaled"
  | pcRelative => "PcRelative"
  | label => "Label"

def ofName? (text : String) : Option Mode := all.find? (·.name == text)

theorem mem_all (mode : Mode) : mode ∈ all := by cases mode <;> decide

/-- A tag gives back its mode, a label as the direct address that it stands for. -/
theorem ofTag?_tag (mode : Mode) :
    ofTag? mode.tag = some (if mode = label then direct else mode) := by cases mode <;> rfl

theorem tag_of_ofTag? {number : Nat} {mode : Mode} (named : ofTag? number = some mode) :
    mode.tag = number := by
  unfold ofTag? at named
  split at named <;> cases named <;> rfl

end Mode

end Tetrad
