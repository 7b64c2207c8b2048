import Tetrad.AddressSpace
import Tetrad.Numeral

namespace Tetrad

structure Memory where
  bytes : Vector UInt8 memorySize
deriving DecidableEq, Repr

namespace Memory

def blank : Memory := ⟨Vector.replicate memorySize 0⟩

instance : Inhabited Memory := ⟨blank⟩

/-- The byte at an address that memory has. -/
def read? (memory : Memory) (address : Nat) : Option UInt8 := memory.bytes[address]?

def set (memory : Memory) (address : Fin memorySize) (value : UInt8) : Memory :=
  ⟨memory.bytes.set address.val value address.isLt⟩

def write? (memory : Memory) (address : Nat) (value : UInt8) : Option Memory :=
  if inside : address < memorySize then some (memory.set ⟨address, inside⟩ value) else none

/-- The two bytes at an address, the first one being the more significant. -/
def readHalf? (memory : Memory) (address : Nat) : Option UInt16 := do
  let high ← memory.read? address
  let low ← memory.read? (address + 1)
  return UInt16.ofNat (high.toNat * 0x100 + low.toNat)

/-- The four bytes at an address, most significant first. -/
def readWord? (memory : Memory) (address : Nat) : Option UInt32 := do
  let high ← memory.readHalf? address
  let low ← memory.readHalf? (address + 2)
  return UInt32.ofNat (high.toNat * 0x10000 + low.toNat)

/-- Memory that holds the given bytes from an address on, and zeros elsewhere. -/
def ofBytes (start : Nat) (data : List UInt8) : Memory :=
  let data := data.toArray
  ⟨Vector.ofFn fun address =>
    if start ≤ address.val then (data[address.val - start]?).getD 0 else 0⟩

theorem read?_set (memory : Memory) (address : Fin memorySize) (value : UInt8) (other : Nat) :
    (memory.set address value).read? other =
      if address.val = other then some value else memory.read? other := by
  simp only [read?, set, Vector.getElem?_set]

theorem read?_eq_none_iff (memory : Memory) (address : Nat) :
    memory.read? address = none ↔ memorySize ≤ address := by
  simp [read?]

/-- The written form of memory, which leaves out its bytes. -/
def text (_ : Memory) : String := "Memory \x7b size: " ++ Numeral.decimal memorySize ++ ", .. \x7d"

end Memory

end Tetrad
