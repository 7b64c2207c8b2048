import Tetrad.Blank
import Tetrad.Source.Location

namespace Tetrad.Source

/-- The lines of a text, without the line feeds between them. -/
def lines (text : List Char) : List (List Char) := text.splitOn '\n'

/-- A line up to its first `//`, and what follows that mark. -/
def splitComment : List Char → List Char × Option (List Char)
  | [] => ([], none)
  | '/' :: '/' :: comment => ([], some comment)
  | c :: rest =>
    let (code, comment) := splitComment rest
    (c :: code, comment)

/-- The length of a text in bytes of UTF-8. -/
def byteLength (text : List Char) : Nat := (text.map Char.utf8Size).foldr (· + ·) 0

@[simp] theorem byteLength_nil : byteLength [] = 0 := rfl

@[simp] theorem byteLength_cons (c : Char) (text : List Char) :
    byteLength (c :: text) = c.utf8Size + byteLength text := rfl

@[simp] theorem byteLength_append (text other : List Char) :
    byteLength (text ++ other) = byteLength text + byteLength other := by
  induction text with
  | nil => simp
  | cons c rest ih => simp [ih, Nat.add_assoc]

theorem byteLength_pos {text : List Char} (nonempty : text ≠ []) : 0 < byteLength text := by
  cases text with
  | nil => exact absurd rfl nonempty
  | cons c rest => exact Nat.add_pos_left c.utf8Size_pos _

/-- The character ends a field. -/
def isSeparator (c : Char) : Bool := isBlank c || c == ','

/-- What stands in a line apart from blanks. -/
inductive Piece where
  | field (column : Nat) (text : List Char)
  | comma (column : Nat)
deriving DecidableEq, Repr, Inhabited

/-- The pieces of a text that starts at a column, a field being a longest run without separators. -/
def pieces (column : Nat) : List Char → List Piece
  | [] => []
  | c :: rest =>
    let next := column + c.utf8Size
    let later := pieces next rest
    if c = ',' then .comma column :: later
    else if isBlank c then later
    else match later with
      | .field start text :: others =>
        if start = next then .field column (c :: text) :: others else .field column [c] :: later
      | _ => .field column [c] :: later

/-- A field and the place of its first character. -/
structure Lexeme where
  text : String
  location : Location
deriving DecidableEq, Repr, Inhabited

def Piece.lexeme? (line : Nat) : Piece → Option Lexeme
  | field column text => some ⟨String.ofList text, ⟨line, column⟩⟩
  | comma _ => none

def fields (number : Nat) (line : List Char) : List Lexeme :=
  (pieces 0 (splitComment line).1).filterMap (Piece.lexeme? number)

def numbered (source : String) : List (List Char × Nat) := (lines source.toList).zipIdx 1

/-- The fields of every line of a source, blank lines included. -/
def rows (source : String) : List (List Lexeme) :=
  (numbered source).map fun (line, number) => fields number line

end Tetrad.Source
