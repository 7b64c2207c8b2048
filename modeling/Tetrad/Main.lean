import Tetrad.CommandLine.Directory

namespace Tetrad.CommandLine

/-- The kind of a failure of the file system. -/
def fileError : IO.Error → FileError
  | .noFileOrDirectory .. => .missing
  | .inappropriateType .. => .isDirectory
  | .permissionDenied .. => .denied
  | error => .other (toString error)

def readFile (path : String) : IO (Except FileError (List UInt8)) := do
  try
    return .ok (← IO.FS.readBinFile path).toList
  catch error => return .error (fileError error)

/-- Writes a file, and says why it could not. -/
def writeFile (path : String) (bytes : List UInt8) : IO (Option FileError) := do
  try
    IO.FS.writeBinFile path ⟨bytes.toArray⟩
    return none
  catch error => return some (fileError error)

/-- Carries out a command on the file system. -/
def execute (arguments : List String) : IO Reply := do
  match Request.ofArguments arguments with
  | .error stop => return stop.reply
  | .ok request =>
    let response := request.respond (← readFile request.input)
    match response.output? with
    | none => return response.reply
    | some (path, bytes) =>
      match ← writeFile path bytes with
      | none => return response.reply
      | some error => return Directory.uncreated path error

end Tetrad.CommandLine

def main (arguments : List String) : IO UInt32 := do
  let reply ← Tetrad.CommandLine.execute arguments
  IO.print reply.stdout
  IO.eprint reply.stderr
  return UInt32.ofNat reply.code
