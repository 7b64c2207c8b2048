import Tetrad.CommandLine.Address

/-!
# Requests: what the arguments ask for

The first argument is the verb. After it come paths and, for assembling, options in any order; a
double dash ends the options. Arguments are read from left to right, and the first that asks for
help or does not fit ends the reading.
-/

namespace Tetrad

/-- What the command line can be asked to do. -/
inductive Request where
  | assemble (source output : String) (symbols : Bool) (base : Option UInt16)
  | run (rom : String)
  | disassemble (rom : String)
deriving DecidableEq, Repr, Inhabited

inductive Misuse where
  | missingVerb
  | unknownVerb (verb : String)
  | unknownOption (option : String)
  | repeatedOption (option : String)
  | missingValue (option : String)
  | unexpectedValue (option : String)
  | invalidAddress (text : String) (error : AddressError)
  | emptyPath
  | missingPath
  | extraPath (path : String)
deriving DecidableEq, Repr, Inhabited

def Misuse.message : Misuse → String
  | missingVerb => "a command is required"
  | unknownVerb verb => "unknown command '" ++ verb ++ "'"
  | unknownOption option => "unexpected argument '" ++ option ++ "'"
  | repeatedOption option => "the option '" ++ option ++ "' is given twice"
  | missingValue option => "a value is required for '" ++ option ++ "'"
  | unexpectedValue option => "the option '" ++ option ++ "' takes no value"
  | invalidAddress text error => error.message text
  | emptyPath => "a path is empty"
  | missingPath => "a path is missing"
  | extraPath path => "unexpected argument '" ++ path ++ "'"

/-- Why the reading of arguments ends early. -/
inductive Stop where
  | help
  | misuse (reason : Misuse)
deriving DecidableEq, Repr, Inhabited

namespace Request

inductive Verb where
  | assemble
  | run
  | disassemble
deriving DecidableEq, Repr, Inhabited

def Verb.ofName? : String → Option Verb
  | "assemble" => some assemble
  | "run" => some run
  | "disassemble" => some disassemble
  | _ => none

def Verb.pathCount : Verb → Nat
  | assemble => 2
  | run => 1
  | disassemble => 1

inductive Expectation where
  | anything
  | baseValue
  | pathOnly
deriving DecidableEq, Repr, Inhabited

/-- What the arguments so far ask for. -/
structure Draft where
  verb : Verb
  paths : List String := []
  symbols : Bool := false
  base : Option UInt16 := none
  expects : Expectation := .anything
deriving DecidableEq, Repr, Inhabited

namespace Draft

def addPath (draft : Draft) (path : String) : Except Stop Draft :=
  if path.isEmpty then .error (.misuse .emptyPath)
  else if draft.paths.length ≥ draft.verb.pathCount then .error (.misuse (.extraPath path))
  else .ok { draft with paths := draft.paths ++ [path] }

def setSymbols (draft : Draft) : Except Stop Draft :=
  if draft.symbols then .error (.misuse (.repeatedOption "--symbols"))
  else .ok { draft with symbols := true }

def setBase (draft : Draft) (value : List Char) : Except Stop Draft :=
  match AddressArgument.read value with
  | .error error => .error (.misuse (.invalidAddress (String.ofList value) error))
  | .ok address =>
    if draft.base.isSome then .error (.misuse (.repeatedOption "--base"))
    else .ok { draft with base := some address, expects := .anything }

/-- Takes short options that share a dash. The base takes what follows it, after an equals sign if
there is one, or else the next argument. -/
def shortOptions (draft : Draft) : List Char → Except Stop Draft
  | [] => .ok draft
  | 'h' :: _ => .error .help
  | option :: rest =>
    match draft.verb, option, rest with
    | .assemble, 's', _ => do (← draft.setSymbols).shortOptions rest
    | .assemble, 'b', [] => .ok { draft with expects := .baseValue }
    | .assemble, 'b', '=' :: value => draft.setBase value
    | .assemble, 'b', value => draft.setBase value
    | _, _, _ => .error (.misuse (.unknownOption (String.ofList ['-', option])))

/-- Takes a long option, given without its two dashes. -/
def longOption (draft : Draft) (option : List Char) : Except Stop Draft :=
  let name := String.ofList (option.takeWhile (· != '='))
  let value? := (option.dropWhile (· != '=')).tail?
  match draft.verb, name, value? with
  | _, "help", none => .error .help
  | _, "help", some _ => .error (.misuse (.unexpectedValue "--help"))
  | .assemble, "symbols", none => draft.setSymbols
  | .assemble, "symbols", some _ => .error (.misuse (.unexpectedValue "--symbols"))
  | .assemble, "base", none => .ok { draft with expects := .baseValue }
  | .assemble, "base", some value => draft.setBase value
  | _, _, _ => .error (.misuse (.unknownOption (String.ofList ('-' :: '-' :: option))))

/-- Takes one argument. A single dash is a path, and no value starts with a dash and goes on. -/
def take (draft : Draft) (argument : String) : Except Stop Draft :=
  match draft.expects, argument.toList with
  | .pathOnly, _ => draft.addPath argument
  | .baseValue, '-' :: _ :: _ => .error (.misuse (.missingValue "--base"))
  | .baseValue, value => draft.setBase value
  | .anything, ['-', '-'] => .ok { draft with expects := .pathOnly }
  | .anything, '-' :: '-' :: option => draft.longOption option
  | .anything, '-' :: option :: rest => draft.shortOptions (option :: rest)
  | .anything, _ => draft.addPath argument

/-- The request of a draft that has everything it needs. -/
def finish (draft : Draft) : Except Stop Request :=
  match draft.expects, draft.verb, draft.paths with
  | .baseValue, _, _ => .error (.misuse (.missingValue "--base"))
  | _, .assemble, [source, output] => .ok (.assemble source output draft.symbols draft.base)
  | _, .run, [rom] => .ok (.run rom)
  | _, .disassemble, [rom] => .ok (.disassemble rom)
  | _, _, _ => .error (.misuse .missingPath)

end Draft

def ofArguments : List String → Except Stop Request
  | [] => .error (.misuse .missingVerb)
  | first :: rest =>
    match Verb.ofName? first, first, rest with
    | some verb, _, _ => do (← rest.foldlM Draft.take { verb := verb }).finish
    | none, "help", [] => .error .help
    | none, "help", ["help"] => .error .help
    | none, "help", [verb] =>
      .error (if (Verb.ofName? verb).isSome then .help else .misuse (.unknownVerb verb))
    | none, "--help", _ => .error .help
    | none, _, _ =>
      .error (if first.startsWith "-h" then .help else .misuse (.unknownVerb first))

def input : Request → String
  | assemble source _ _ _ => source
  | run rom => rom
  | disassemble rom => rom

end Request

end Tetrad
