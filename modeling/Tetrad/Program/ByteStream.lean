import Tetrad.Program.Assemble

namespace Tetrad

structure ByteStream where
  labels : Labels
  pending : List UInt8
  rest : List InstructionLine
  held : Option AssemblyError
deriving DecidableEq, Repr, Inhabited

namespace ByteStream

/-- The stream of all bytes of a program's instructions. -/
def start (statements : List Statement) (labels : Labels) : ByteStream :=
  ⟨labels, [], statements.filterMap Statement.instruction?, none⟩

/-- The next byte, or the error that ends the stream. -/
def next (stream : ByteStream) : Option (Except AssemblyError UInt8) × ByteStream :=
  match stream.pending, stream.rest with
  | byte :: bytes, _ => (some (.ok byte), { stream with pending := bytes })
  | [], [] => (none, stream)
  | [], line :: lines =>
    match line.encode stream.labels with
    | .error error => (some (.error error), { stream with rest := [] })
    | .ok word =>
      (some (.ok (wordByte word 0)),
        { stream with
          pending := [wordByte word 1, wordByte word 2, wordByte word 3]
          rest := lines })

/-- What a run of pulls gave: bytes, and the error that stopped it. -/
structure Pulled where
  bytes : List UInt8
  error : Option AssemblyError
deriving DecidableEq, Repr, Inhabited

/-- Pulls up to a number of bytes. -/
def pull : Nat → ByteStream → Pulled × ByteStream
  | 0, stream => (⟨[], none⟩, stream)
  | count + 1, stream =>
    match stream.next with
    | (none, after) => (⟨[], none⟩, after)
    | (some (.error error), after) => (⟨[], some error⟩, after)
    | (some (.ok byte), after) =>
      let (pulled, last) := pull count after
      (⟨byte :: pulled.bytes, pulled.error⟩, last)

/-- More pulls than the stream can answer with bytes. -/
def bound (stream : ByteStream) : Nat := stream.pending.length + 4 * stream.rest.length + 1

/-- Pulls to the end or the first error. -/
def collect (stream : ByteStream) : Pulled × ByteStream := stream.pull stream.bound

/-- Reads up to a number of bytes. A held error comes first; a new one comes at once if no byte
stands before it, and is held otherwise. -/
def read (count : Nat) (stream : ByteStream) : Except AssemblyError (List UInt8) × ByteStream :=
  match stream.held with
  | some error => (.error error, { stream with held := none })
  | none =>
    match stream.pull count with
    | (⟨[], some error⟩, after) => (.error error, after)
    | (⟨bytes, error⟩, after) => (.ok bytes, { after with held := error })

/-- Reads everything that is left, up to a held or a new error. -/
def readToEnd (stream : ByteStream) : Pulled × ByteStream :=
  match stream.held with
  | some error => (⟨[], some error⟩, { stream with held := none })
  | none => stream.collect

end ByteStream

end Tetrad
