import Tetrad.Pattern

namespace Tetrad

/-- A record in braces, each field after its name. -/
private def braced (name : String) (fields : List (String × String)) : String :=
  name ++ " \x7b " ++ String.intercalate ", " (fields.map fun (key, value) => key ++ ": " ++ value)
    ++ " \x7d"

/-- A constructor with one value. -/
private def applied (name value : String) : String := name ++ "(" ++ value ++ ")"

/-- A character between quotation marks, escaped where it has to be. -/
private def quotedChar (c : Char) : String :=
  if c = '"' then "\\\"" else if c = '\\' then "\\\\"
  else if c = '\n' then "\\n" else if c = '\r' then "\\r" else if c = '\t' then "\\t"
  else if c.toNat = 0 then "\\0"
  else if c.toNat < 0x20 ∨ (0x7F ≤ c.toNat ∧ c.toNat < 0xA0) then
    "\\u\x7b" ++ Numeral.padded 16 1 c.toNat ++ "\x7d"
  else String.ofList [c]

/-- A text between quotation marks. -/
private def quotedText (text : String) : String :=
  "\"" ++ String.join (text.toList.map quotedChar) ++ "\""

def Register.report (register : Register) : String :=
  applied "Register" (Numeral.decimal register.index.val)

def Address.report : Address → String
  | absolute value => applied "Absolute" (Numeral.decimal value.toNat)
  | label name => applied "Label" (quotedText name)

def Operand.report : Operand → String
  | immediate value => applied "Immediate" (Numeral.decimal value.toNat)
  | direct address => applied "Direct" (Numeral.decimal address.toNat)
  | indirect pointer => applied "Indirect" pointer.report
  | register r => applied "Register" r.report
  | registerIndirect r => applied "RegisterIndirect" r.report
  | registerRelative offset r =>
    braced "RegisterRelative"
      [("offset", Numeral.decimal offset.toNat), ("register", r.report)]
  | indexedScaled base scale r =>
    braced "IndexedScaled"
      [("base", Numeral.decimal base.toNat), ("scale", Numeral.decimal scale.toNat),
        ("register", r.report)]
  | pcRelative offset => applied "PcRelative" (Numeral.decimal offset.toNat)
  | label name => applied "Label" (quotedText name)

def PartPattern.report {α : Type} (part : α → String) : PartPattern α → String
  | any => "Any"
  | exact value => applied "Exact" (part value)
  | satisfies _ => "Predicate"

namespace Pattern

def report : Pattern → String
  | any => "Any"
  | form opcode operands =>
    let parts := String.intercalate ", " (operands.map (PartPattern.report Operand.report))
    braced "Op" [("opcode", opcode.title), ("operands", "[" ++ parts ++ "]")]
  | load opcode target source =>
    braced "Load"
      [("opcode", opcode.report Opcode.title), ("dst", target.report Register.report),
        ("src", source.report Operand.report)]
  | store source destination =>
    braced "Store"
      [("src", source.report Register.report), ("dst", destination.report Operand.report)]
  | alu opcode target source =>
    braced "Alu"
      [("opcode", opcode.report Opcode.title), ("dst", target.report Register.report),
        ("src", source.report Operand.report)]
  | compare register source =>
    braced "Compare"
      [("reg", register.report Register.report), ("src", source.report Operand.report)]
  | jump opcode target =>
    braced "Jump"
      [("opcode", opcode.report Opcode.title), ("target", target.report Operand.report)]
  | print register => braced "Print" [("reg", register.report Register.report)]
  | halt => "Halt"

end Pattern

/-- Lines below each other, each indented by two spaces. -/
private def block (lines : List String) : String :=
  String.intercalate "\n" (lines.map ("  " ++ ·))

/-- The patterns above the instructions. -/
private def comparison (patterns : List Pattern) (instructions : List Instruction) : String :=
  "Expected pattern:\n" ++ block (patterns.map Pattern.report) ++ "\n\nActual instructions:\n"
    ++ block (instructions.map Instruction.text)

def PatternFailure.message (patterns : List Pattern) (instructions : List Instruction) :
    PatternFailure → String
  | missing => "Pattern not found in instruction sequence.\n\n" ++ comparison patterns instructions
  | count expected found =>
    "Instruction count mismatch: expected " ++ Numeral.decimal expected ++ ", got "
      ++ Numeral.decimal found ++ ".\n\n" ++ comparison patterns instructions
  | mismatch index pattern instruction =>
    "Instruction mismatch at index " ++ Numeral.decimal index ++ ":\nExpected: " ++ pattern.report
      ++ "\nActual:   " ++ instruction.text ++ "\n\nFull instructions:\n"
      ++ block (instructions.map Instruction.text)

end Tetrad
