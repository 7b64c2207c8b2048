import Tetrad.Register

namespace Tetrad

structure Registers where
  values : Vector UInt8 16
deriving DecidableEq, Repr

namespace Registers

def blank : Registers := ⟨Vector.replicate 16 0⟩

instance : Inhabited Registers := ⟨blank⟩

def get (registers : Registers) (register : Register) : UInt8 := registers.values[register.index]

/-- Gives a register a value, unless it is the zero register. -/
def set (registers : Registers) (register : Register) (value : UInt8) : Registers :=
  if register = .zero then registers
  else ⟨registers.values.set register.index.val value register.index.isLt⟩

/-- A register has the value that it was given last; the zero register takes none. -/
theorem get_set (registers : Registers) (a b : Register) (value : UInt8) :
    (registers.set a value).get b = if a = b ∧ a ≠ .zero then value else registers.get b := by
  unfold set
  split
  · next same => simp [same]
  · next other =>
    have index : a.index.val = b.index.val ↔ a = b := by
      rw [← Fin.ext_iff]; cases a; cases b; simp
    simp only [get, Fin.getElem_fin, Vector.getElem_set, index, ne_eq, other, not_false_eq_true,
      and_true]

end Registers

end Tetrad
