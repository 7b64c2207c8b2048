namespace Tetrad

def addressSpace : Nat := 0x10000

def memorySize : Nat := 4096

/-- The address at which programs are loaded, and where a program starts unless it says otherwise. -/
def loadAddress : UInt16 := 0x200

/-- The bytes that a loaded program may take. -/
def romCapacity : Nat := memorySize - loadAddress.toNat

theorem loadAddress_add_romCapacity : loadAddress.toNat + romCapacity = memorySize := by decide

end Tetrad
