import Tetrad.Source.Line
import Tetrad.Table

namespace Tetrad

inductive TokenKind where
  | instruction
  | value
  | label
  | comma
  | newline
  | comment
deriving DecidableEq, Repr, Inhabited

/-- The token belongs to the program and not to its layout. -/
def TokenKind.isSignificant : TokenKind → Bool
  | instruction => true
  | value => true
  | label => true
  | comma => false
  | newline => false
  | comment => false

/-- A token: a label without its dot, a comment without its slashes, or a field as it stands. -/
structure Token where
  kind : TokenKind
  text : String
  location : Location
deriving DecidableEq, Repr, Inhabited

namespace Token

open Source

/-- The token of a field; the first field of a line may be a label or a mnemonic of the table. -/
def ofField (table : Table) (first : Bool) (location : Location) (text : List Char) : Token :=
  let plain := String.ofList text
  match first, text with
  | true, '.' :: name => ⟨.label, String.ofList name, location⟩
  | true, _ => ⟨if (table.lookup? plain).isSome then .instruction else .value, plain, location⟩
  | false, _ => ⟨.value, plain, location⟩

/-- The tokens of the pieces of a line. -/
def ofPieces (table : Table) (number : Nat) (first : Bool) : List Piece → List Token
  | [] => []
  | .comma column :: rest => ⟨.comma, ",", ⟨number, column⟩⟩ :: ofPieces table number first rest
  | .field column text :: rest =>
    ofField table first ⟨number, column⟩ text :: ofPieces table number false rest

/-- The text of a comment without the carriage returns at its end. -/
def commentText (comment : List Char) : List Char :=
  (comment.reverse.dropWhile (· == '\r')).reverse

/-- The tokens of a line; `ended` tells that a line feed ends it. -/
def ofLine (table : Table) (number : Nat) (ended : Bool) (line : List Char) : List Token :=
  let (code, comment) := splitComment line
  let comments := comment.toList.map fun body =>
    ⟨.comment, String.ofList (commentText body), ⟨number, byteLength code⟩⟩
  let ends := if ended then [⟨.newline, "\n", ⟨number, byteLength line⟩⟩] else []
  ofPieces table number true (pieces 0 code) ++ comments ++ ends

end Token

def tokenize (table : Table) (source : String) : List Token :=
  let numbered := Source.numbered source
  numbered.flatMap fun (line, number) => Token.ofLine table number (number < numbered.length) line

end Tetrad
