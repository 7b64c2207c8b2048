import Tetrad.Numeral

namespace Tetrad

/-- Why a text is no address. -/
inductive AddressError where
  | empty
  | invalidDigit
  | tooLarge
deriving DecidableEq, Repr, Inhabited

namespace AddressArgument

/-- Adds digits to a value, from left to right; a character that is no digit is seen before the
value grows too large. -/
def accumulate (radix value : Nat) : List Char → Except AddressError UInt16
  | [] => .ok (UInt16.ofNat value)
  | c :: rest =>
    match Numeral.digitValue? radix c with
    | none => .error .invalidDigit
    | some digit =>
      if value * radix + digit > 0xFFFF then .error .tooLarge
      else accumulate radix (value * radix + digit) rest

/-- The number of digits with at most one plus sign in front. -/
def signed (radix : Nat) : List Char → Except AddressError UInt16
  | [] => .error .empty
  | ['+'] => .error .invalidDigit
  | '+' :: digits => accumulate radix 0 digits
  | digits => accumulate radix 0 digits

def read : List Char → Except AddressError UInt16
  | '0' :: 'x' :: digits => signed 16 digits
  | '0' :: 'X' :: digits => signed 16 digits
  | digits => signed 10 digits

end AddressArgument

def AddressError.message (text : String) (error : AddressError) : String :=
  let reason :=
    match error with
    | empty => "cannot parse integer from empty string"
    | invalidDigit => "invalid digit found in string"
    | tooLarge => "number too large to fit in target type"
  "invalid address `" ++ text ++ "`: " ++ reason

end Tetrad
