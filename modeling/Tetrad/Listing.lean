import Tetrad.AddressSpace
import Tetrad.Word

namespace Tetrad

inductive ListingLine where
  | instruction (address : UInt16) (word : UInt32) (decoded : Instruction)
  | word (address : UInt16) (word : UInt32)
  | trailing (address : UInt16) (bytes : List UInt8)
deriving DecidableEq, Repr, Inhabited

namespace ListingLine

def address : ListingLine → UInt16
  | instruction address _ _ => address
  | word address _ => address
  | trailing address _ => address

def instruction? : ListingLine → Option Instruction
  | instruction _ _ decoded => some decoded
  | word _ _ => none
  | trailing _ _ => none

/-- The text of a line: its address, and an instruction or the word or bytes as they are. -/
def text (line : ListingLine) : String :=
  let content :=
    match line with
    | instruction _ _ decoded => decoded.text
    | word _ raw => ".word " ++ Numeral.hex 8 raw.toNat
    | trailing _ bytes =>
      ".byte " ++ String.intercalate ", " (bytes.map fun byte => Numeral.hex 2 byte.toNat)
  Numeral.hex 4 line.address.toNat ++ ": " ++ content

end ListingLine

/-- The word of four bytes, most significant first. -/
def wordOfBytes (a b c d : UInt8) : UInt32 :=
  UInt32.ofNat (((a.toNat * 0x100 + b.toNat) * 0x100 + c.toNat) * 0x100 + d.toNat)

namespace Listing

/-- The line of a whole word. -/
def lineOfWord (table : Table) (address : UInt16) (word : UInt32) : ListingLine :=
  match table.decode word with
  | .ok instruction => .instruction address word instruction
  | .error _ => .word address word

/-- The lines of bytes that start at an address; addresses wrap around. -/
def fromAddress (table : Table) (address : UInt16) : List UInt8 → List ListingLine
  | [] => []
  | a :: b :: c :: d :: rest =>
    lineOfWord table address (wordOfBytes a b c d) :: fromAddress table (address + 4) rest
  | bytes => [.trailing address bytes]

/-- The listing of a program at the place where it is loaded. -/
def ofRom (table : Table) (rom : List UInt8) : List ListingLine := fromAddress table loadAddress rom

/-- The instructions of a program, what does not decode being left out. -/
def instructions (table : Table) (rom : List UInt8) : List Instruction :=
  (ofRom table rom).filterMap ListingLine.instruction?

def count (opcode : Opcode) (instructions : List Instruction) : Nat :=
  instructions.countP (·.opcode = opcode)

def text (lines : List ListingLine) : String := String.join (lines.map (·.text ++ "\n"))

end Listing

end Tetrad
