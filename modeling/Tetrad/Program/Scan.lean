import Tetrad.Program.Parse
import Tetrad.Source.Token

namespace Tetrad

open Source

namespace Token

/-- The field of a token, with the dot of a label. -/
def lexeme (token : Token) : Lexeme :=
  match token.kind with
  | .label => ⟨"." ++ token.text, token.location⟩
  | _ => ⟨token.text, token.location⟩

/-- The second token is an operand of the first one, if no other stands between them. -/
def takes (token other : Token) : Bool :=
  other.kind == .value && other.location.line == token.location.line

end Token

namespace Statement

/-- The statements of tokens from first to last. -/
def scan (table : Table) : List Token → Except AssemblyError (List Statement)
  | [] => .ok []
  | token :: rest =>
    match token.kind with
    | .instruction =>
      match table.lookup? token.text with
      | some form => do
        let operands := (rest.takeWhile token.takes).map Token.lexeme
        let later := rest.dropWhile token.takes
        let line ← InstructionLine.parse form token.location operands later.isEmpty
        return instruction line :: (← scan table later)
      | none => .error ⟨token.location, .unexpectedIdentifier token.text⟩
    | .label | .value => do
      let label ← Declaration.parse token.lexeme
      return declaration label :: (← scan table rest)
    | .comma | .newline | .comment => scan table rest
termination_by tokens => tokens.length
decreasing_by
  · exact Nat.lt_succ_of_le (List.dropWhile_sublist _).length_le
  all_goals exact Nat.lt_succ_self _

/-- The statements of a list of tokens, the layout among them left out. -/
def ofTokens (table : Table) (tokens : List Token) : Except AssemblyError (List Statement) :=
  scan table (tokens.filter (·.kind.isSignificant))

end Statement

end Tetrad
