import Tetrad.CommandLine.Request
import Tetrad.CommandLine.Symbols
import Tetrad.Diagnostic
import Tetrad.Listing
import Tetrad.Machine.Run
import Tetrad.Program.ByteStream

namespace Tetrad

inductive FileError where
  | missing
  | notDirectory
  | isDirectory
  | nameTooLong
  | denied
  | other (reason : String)
deriving DecidableEq, Repr, Inhabited

def FileError.message : FileError → String
  | missing => "No such file or directory (os error 2)"
  | notDirectory => "Not a directory (os error 20)"
  | isDirectory => "Is a directory (os error 21)"
  | nameTooLong => "File name too long (os error 36)"
  | denied => "Permission denied (os error 13)"
  | other reason => reason

/-- What a command leaves behind for who called it. -/
structure Reply where
  code : Nat
  stdout : String
  stderr : String
deriving DecidableEq, Repr, Inhabited

namespace Reply

/-- A text with each of its lines that is not empty indented. -/
def indented (text : String) : String :=
  String.intercalate "\n" ((Source.lines text.toList).map fun line =>
    if line.isEmpty then "" else "    " ++ String.ofList line)

def success (stdout : String) : Reply := ⟨0, stdout, ""⟩

def failure (stdout attempt cause : String) : Reply :=
  ⟨1, stdout, "Error: " ++ attempt ++ "\n\nCaused by:\n" ++ indented cause ++ "\n"⟩

def usage : String :=
  "Assembler and virtual machine\n\n"
    ++ "assemble SOURCE OUTPUT [-s|--symbols] [-b|--base ADDRESS]\n"
    ++ "run ROM\n"
    ++ "disassemble ROM\n"

end Reply

/-- The reply to arguments that make no request. -/
def Stop.reply : Stop → Reply
  | help => .success Reply.usage
  | misuse reason => ⟨2, "", "error: " ++ reason.message ++ "\n\n" ++ Reply.usage⟩

/-- A reply, and a file to write before it holds. -/
structure Response where
  reply : Reply
  output? : Option (String × List UInt8)
deriving DecidableEq, Repr, Inhabited

namespace Request

/-- The path of a program image: the given path with an ending added, whatever it ends in. -/
def romPath (base : String) : String := base ++ ".chip"

def decodeText? (bytes : List UInt8) : Option String := String.fromUTF8? ⟨bytes.toArray⟩

def assembleText (source output : String) (symbols : Bool) (base : Option UInt16) (text : String) :
    Response :=
  match Program.assemble Table.standard (base.getD loadAddress) text with
  | .error error =>
    ⟨.failure "" "Assembly failed" (Diagnostic.render source text error.location? error.message),
      none⟩
  | .ok program =>
    let path := romPath output
    let (pulled, _) := (ByteStream.start program.statements program.labels).readToEnd
    match pulled.error with
    | some error =>
      ⟨.failure "" ("Failed to write output to " ++ path) error.message, some (path, pulled.bytes)⟩
    | none =>
      let summary :=
        "Assembled " ++ source ++ " -> " ++ path ++ " ("
          ++ Numeral.decimal program.instructions.length ++ " instructions, "
          ++ Numeral.decimal pulled.bytes.length ++ " bytes)\n"
      let table := if symbols then program.labels.json ++ "\n" else ""
      ⟨.success (summary ++ table), some (path, pulled.bytes)⟩

def runImage (rom : List UInt8) : Reply :=
  match (Machine.start Table.standard Transcript.empty).load rom with
  | .error fault => .failure "" "Failed to load ROM" fault.message
  | .ok machine =>
    match machine.run with
    | (last, .halted) => .success last.out.text
    | (last, .failed fault) => .failure last.out.text "Execution failed" fault.message
    | (last, .unfinished) => .failure last.out.text "Execution failed" "the program never halts"

/-- The response to a request, given what reading its input gave. -/
def respond (request : Request) (content : Except FileError (List UInt8)) : Response :=
  let unread (reason : String) : Response :=
    ⟨.failure "" ("Failed to read " ++ request.input) reason, none⟩
  match content with
  | .error error => unread error.message
  | .ok bytes =>
    match request with
    | assemble source output symbols base =>
      match decodeText? bytes with
      | none => unread "stream did not contain valid UTF-8"
      | some text => assembleText source output symbols base text
    | run _ => ⟨runImage bytes, none⟩
    | disassemble _ => ⟨.success (Listing.text (Listing.ofRom Table.standard bytes)), none⟩

end Request

end Tetrad
