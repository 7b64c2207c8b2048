import Tetrad.Numeral

namespace Tetrad

structure Register where
  index : Fin 16
deriving DecidableEq, Repr, Inhabited

namespace Register

def zero : Register := ⟨0⟩

def sp : Register := ⟨14⟩

def cmp : Register := ⟨15⟩

def ofIndex? (index : Nat) : Option Register :=
  if inside : index < 16 then some ⟨⟨index, inside⟩⟩ else none

/-- The general register of this number, 1 to 13. -/
def general? (number : Nat) : Option Register :=
  if 1 ≤ number ∧ number ≤ 13 then ofIndex? number else none

/-- The wording for a number that no general register has. -/
def notGeneral (number : Nat) : String :=
  "r" ++ Numeral.decimal number ++ " is not a general register"

/-- The register is one of the general ones. -/
def isGeneral (register : Register) : Bool := 1 ≤ register.index.val && register.index.val ≤ 13

/-- The register with a name of its own, in any case of its ASCII letters. -/
def ofName? (name : List Char) : Option Register :=
  match name.map Char.toLower with
  | ['z', 'e', 'r', 'o'] => some zero
  | ['s', 'p'] => some sp
  | ['c', 'm', 'p'] => some cmp
  | _ => none

def text (register : Register) : String :=
  if register = zero then "$zero"
  else if register = sp then "$sp"
  else if register = cmp then "$cmp"
  else "$r" ++ Numeral.decimal register.index.val

end Register

end Tetrad
