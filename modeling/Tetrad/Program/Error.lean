import Tetrad.Source.Location
import Tetrad.Word

namespace Tetrad

inductive AssemblyCause where
  | unexpectedEnd (mnemonic : String) (expected : Nat)
  | invalidOperand (token : String)
  | unexpectedIdentifier (token : String)
  | arityMismatch (mnemonic : String) (expected found : Nat)
  | invalidMode (mnemonic token : String) (position : Nat) (mode : Mode)
  | inconsistentModes (mnemonic token : String) (expected found : Mode)
  | duplicateLabel (label : String)
  | undefinedLabel (label : String)
  | instructionOverflow (mnemonic : String) (bits : Nat)
  | registerOutOfRange (token : String)
  | programTooLarge (token : String)
  | unencodable (mnemonic : String) (reason : WordError)
deriving DecidableEq, Repr, Inhabited

/-- A cause at a place in the source. -/
structure AssemblyError where
  location : Location
  cause : AssemblyCause
deriving DecidableEq, Repr, Inhabited

namespace AssemblyError

/-- The place that a report points at; an instruction that no source can say has none. -/
def location? (error : AssemblyError) : Option Location :=
  match error.cause with
  | .unencodable _ _ => none
  | _ => some error.location

/-- A name between grave accents. -/
private def quoted (name : String) : String := "`" ++ name ++ "`"

/-- The wording of a cause after its place. -/
private def detail : AssemblyCause → String
  | .unexpectedEnd mnemonic expected =>
    "unexpected end of input, " ++ quoted mnemonic ++ " expects " ++ Numeral.decimal expected
      ++ " operand(s)"
  | .invalidOperand token => "invalid operand " ++ quoted token
  | .unexpectedIdentifier token => "unexpected identifier " ++ quoted token
  | .arityMismatch mnemonic expected found =>
    quoted mnemonic ++ " expects " ++ Numeral.decimal expected ++ " operand(s), found "
      ++ Numeral.decimal found
  | .invalidMode mnemonic token position mode =>
    mode.name ++ " operand " ++ quoted token ++ " is not allowed as operand "
      ++ Numeral.decimal position ++ " of " ++ quoted mnemonic
  | .inconsistentModes mnemonic token expected found =>
    "operands of " ++ quoted mnemonic ++ " must share one addressing mode, " ++ quoted token
      ++ " is " ++ found.name ++ " but expected " ++ expected.name
  | .duplicateLabel label => "duplicate definition of label " ++ quoted label
  | .undefinedLabel label => "undefined label " ++ quoted label
  | .instructionOverflow mnemonic bits =>
    quoted mnemonic ++ " needs " ++ Numeral.decimal bits ++ " bits, an instruction word holds 32"
  | .registerOutOfRange token => "register " ++ quoted token ++ " is out of range"
  | .programTooLarge token => quoted token ++ " does not fit in the 16-bit address space"
  | .unencodable _ reason => reason.message

def message (error : AssemblyError) : String :=
  match error.cause with
  | .unencodable mnemonic reason =>
    "Internal error: cannot encode " ++ quoted mnemonic ++ " at " ++ error.location.text ++ ": "
      ++ reason.message
  | cause => error.location.text ++ ": " ++ detail cause

end AssemblyError

end Tetrad
