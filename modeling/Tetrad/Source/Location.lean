import Tetrad.Numeral

namespace Tetrad

/-- A place in source text: lines count from 1, columns from 0 in bytes of UTF-8. -/
structure Location where
  line : Nat
  column : Nat
deriving DecidableEq, Repr, Inhabited

def Location.text (location : Location) : String :=
  "line " ++ Numeral.decimal location.line ++ ", column " ++ Numeral.decimal location.column

end Tetrad
