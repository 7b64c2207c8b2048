namespace Tetrad

/-- A place for printed text. A write gives the place as it is afterwards, and the reason if it
refused the text. -/
class Sink (σ : Type) where
  write : σ → String → σ × Option String

/-- Text kept in memory, up to a number of lines if there is a limit. -/
structure Transcript where
  text : String
  lineLimit : Option Nat
deriving DecidableEq, Repr, Inhabited

namespace Transcript

def empty : Transcript := ⟨"", none⟩

/-- The limit is reached: that many lines have ended. -/
def isFull (transcript : Transcript) : Bool :=
  match transcript.lineLimit with
  | none => false
  | some limit => limit ≤ transcript.text.toList.count '\n'

/-- Keeps a text, unless the transcript is full. -/
def write (transcript : Transcript) (text : String) : Transcript × Option String :=
  if transcript.isFull then (transcript, some "sink full")
  else ({ transcript with text := transcript.text ++ text }, none)

instance : Sink Transcript := ⟨write⟩

end Transcript

/-- Bytes kept in memory. Every text is taken, in UTF-8. -/
structure Buffer where
  bytes : ByteArray
deriving Inhabited

namespace Buffer

def empty : Buffer := ⟨ByteArray.empty⟩

def write (buffer : Buffer) (text : String) : Buffer := ⟨buffer.bytes ++ text.toUTF8⟩

instance : Sink Buffer := ⟨fun buffer text => (buffer.write text, none)⟩

end Buffer

end Tetrad
