import Tetrad.CommandLine.Response

namespace Tetrad

/-- The files of a directory, each name once. -/
structure Directory where
  files : List (String × List UInt8)
deriving DecidableEq, Repr, Inhabited

namespace Directory

def content? (directory : Directory) (name : String) : Option (List UInt8) :=
  directory.files.lookup name

/-- Gives a file a content, a new file coming last. -/
def put (directory : Directory) (name : String) (bytes : List UInt8) : Directory :=
  if (directory.content? name).isSome then
    ⟨directory.files.map fun file => if file.1 == name then (name, bytes) else file⟩
  else ⟨directory.files ++ [(name, bytes)]⟩

/-- The parts of a path between its slashes. -/
def parts (path : String) : List String := (path.toList.splitOn '/').map String.ofList

/-- The name of the file that a path leads to. Empty parts and single dots lead nowhere else; a path
that starts with a slash leads outside. -/
def locate (directory : Directory) (path : String) : Except FileError String :=
  let steps := (parts path).filter fun part => part != "" && part != "."
  let endsInFile := (parts path).getLast? == steps.getLast?
  match steps with
  | [] => .error .isDirectory
  | name :: rest =>
    if path.startsWith "/" || name == ".." then .error .missing
    else if name.utf8ByteSize > 255 then .error .nameTooLong
    else if rest.isEmpty && endsInFile then .ok name
    else if (directory.content? name).isSome then .error .notDirectory
    else .error .missing

def read (directory : Directory) (path : String) : Except FileError (List UInt8) := do
  let name ← directory.locate path
  match directory.content? name with
  | some bytes => return bytes
  | none => throw .missing

/-- Makes the file of a path, in the place of one that was there. -/
def create (directory : Directory) (path : String) (bytes : List UInt8) :
    Except FileError Directory := do
  let name ← directory.locate path
  return directory.put name bytes

/-- The reply when a file cannot be made. -/
def uncreated (path : String) (error : FileError) : Reply :=
  .failure "" ("Failed to create " ++ path) error.message

/-- Carries out a command in a directory. -/
def perform (directory : Directory) (arguments : List String) : Reply × Directory :=
  match Request.ofArguments arguments with
  | .error stop => (stop.reply, directory)
  | .ok request =>
    let response := request.respond (directory.read request.input)
    match response.output? with
    | none => (response.reply, directory)
    | some (path, bytes) =>
      match directory.create path bytes with
      | .ok after => (response.reply, after)
      | .error error => (uncreated path error, directory)

end Directory

end Tetrad
