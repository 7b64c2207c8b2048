import Tetrad.Program.Error
import Tetrad.Source.Line

namespace Tetrad.Diagnostic

/-- A line without the carriage return in front of its line feed. -/
def dropReturn (line : List Char) : List Char :=
  if line.getLast? = some '\r' then line.dropLast else line

/-- The lines of a text as a reader counts them: a line feed ends a line, a carriage return in front
of it belongs to the end, and nothing after the last line feed is no line. -/
def displayLines (text : List Char) : List (List Char) :=
  let all := Source.lines text
  let ended := all.dropLast.map dropReturn
  match all.getLast? with
  | none => ended
  | some [] => ended
  | some last => ended ++ [last]

private def blanks (count : Nat) : String := String.ofList (List.replicate count ' ')

/-- A message with the line at a location, the caret standing below the column. Without a location
it is the message alone, and without such a line the message after its path. -/
def render (path source : String) (location : Option Location) (message : String) : String :=
  match location with
  | none => message
  | some location =>
    let headline := path ++ ": " ++ message
    match (displayLines source.toList)[location.line - 1]? with
    | none => headline
    | some line =>
      let number := Numeral.decimal location.line
      let gutter := blanks number.length
      headline ++ "\n" ++ gutter ++ " |\n" ++ number ++ " | " ++ String.ofList line ++ "\n"
        ++ gutter ++ " | " ++ blanks location.column ++ "^"

/-- The text of a message with a line: the message after its path, and three lines more. -/
theorem toList_render {path source message : String} {location : Location} {line : List Char}
    (shown : (displayLines source.toList)[location.line - 1]? = some line) :
    (render path source (some location) message).toList =
      (path ++ ": " ++ message).toList ++ '\n' ::
        (List.replicate (Numeral.digits 10 location.line).length ' ' ++ [' ', '|'] ++ '\n' ::
          (Numeral.digits 10 location.line ++ [' ', '|', ' '] ++ line ++ '\n' ::
            (List.replicate (Numeral.digits 10 location.line).length ' ' ++ [' ', '|', ' '] ++
              List.replicate location.column ' ' ++ ['^']))) := by
  simp [render, shown, blanks, Numeral.decimal]

end Tetrad.Diagnostic
