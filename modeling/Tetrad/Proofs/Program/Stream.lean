import Tetrad.Program.ByteStream
import Tetrad.Proofs.Failure

namespace Tetrad

/-- The bytes of instruction lines up to the first line without a word, and the error of that
line. -/
def encodeLines (labels : Labels) : List InstructionLine → ByteStream.Pulled
  | [] => ⟨[], none⟩
  | line :: rest =>
    match line.encode labels with
    | .error error => ⟨[], some error⟩
    | .ok word =>
      let later := encodeLines labels rest
      ⟨wordBytes word ++ later.bytes, later.error⟩

namespace ByteStream

variable {stream after : ByteStream}

/-- What a stream has still to give. -/
def remaining (stream : ByteStream) : Pulled :=
  let later := encodeLines stream.labels stream.rest
  ⟨stream.pending ++ later.bytes, later.error⟩

/-- A pull takes the first of the remaining bytes; without one it gives the error, if there is
any, and then nothing remains. -/
theorem next_cases (stream : ByteStream) :
    (∃ byte after, stream.next = (some (.ok byte), after) ∧ after.bound + 1 = stream.bound ∧
      stream.remaining = ⟨byte :: after.remaining.bytes, after.remaining.error⟩) ∨
    (∃ error after, stream.next = (some (.error error), after) ∧
      stream.remaining = ⟨[], some error⟩ ∧ after.remaining = ⟨[], none⟩) ∨
    (stream.next = (none, stream) ∧ stream.remaining = ⟨[], none⟩) := by
  obtain ⟨labels, pending, rest, held⟩ := stream
  cases pending with
  | cons byte bytes =>
    refine .inl ⟨byte, ⟨labels, bytes, rest, held⟩, by simp only [next], ?_, rfl⟩
    simp only [bound, List.length_cons]
    omega
  | nil =>
    cases rest with
    | nil => exact .inr (.inr ⟨by simp only [next], rfl⟩)
    | cons line lines =>
      cases encoded : line.encode labels with
      | error error =>
        refine .inr (.inl ⟨error, ⟨labels, [], [], held⟩, by simp only [next, encoded], ?_, rfl⟩)
        simp only [remaining, encodeLines, encoded, List.nil_append]
      | ok word =>
        refine .inl ⟨wordByte word 0,
          ⟨labels, [wordByte word 1, wordByte word 2, wordByte word 3], lines, held⟩,
          by simp only [next, encoded], ?_, ?_⟩
        · simp only [bound, List.length_cons, List.length_nil]
          omega
        · simp only [remaining, encodeLines, encoded, wordBytes, List.nil_append, List.cons_append]

theorem held_of_next {result : Option (Except AssemblyError UInt8)}
    (answer : stream.next = (result, after)) : after.held = stream.held := by
  unfold next at answer
  split at answer
  · cases answer
    rfl
  · cases answer
    rfl
  · split at answer
    · cases answer
      rfl
    · cases answer
      rfl

/-- Enough pulls give everything that remains. -/
theorem pull_eq_remaining {count : Nat} (enough : stream.bound ≤ count) :
    (stream.pull count).1 = stream.remaining := by
  -- Every byte lowers the bound by one, so the pulls do not run out before the stream.
  induction count generalizing stream with
  | zero => simp [bound] at enough
  | succ count ih =>
    rcases next_cases stream with ⟨byte, after, pulled, fewer, same⟩ |
      ⟨error, after, pulled, same, -⟩ | ⟨pulled, same⟩
    · have later := ih (show after.bound ≤ count by omega)
      rw [same, ← later]
      simp only [pull, pulled]
    · rw [same]
      simp only [pull, pulled]
    · rw [same]
      simp only [pull, pulled]

theorem collect_eq_remaining (stream : ByteStream) : stream.collect.1 = stream.remaining :=
  pull_eq_remaining (Nat.le_refl _)

end ByteStream

theorem length_flatMap_wordBytes (words : List UInt32) :
    (words.flatMap wordBytes).length = 4 * words.length := by
  induction words with
  | nil => rfl
  | cons word rest ih =>
    rw [List.flatMap_cons, List.length_append, ih, List.length_cons, wordBytes]
    simp only [List.length_cons, List.length_nil]
    omega

/-- The bytes of a run of pulls, or the error that it met. -/
def ByteStream.Pulled.whole (pulled : ByteStream.Pulled) : Except AssemblyError (List UInt8) :=
  match pulled.error with
  | none => .ok pulled.bytes
  | some error => .error error

theorem ByteStream.Pulled.whole_eq_ok_iff {pulled : ByteStream.Pulled} {bytes : List UInt8} :
    pulled.whole = .ok bytes ↔ pulled = ⟨bytes, none⟩ := by
  obtain ⟨own, error⟩ := pulled
  cases error <;> simp [whole]

theorem ByteStream.Pulled.whole_prepend (bytes : List UInt8) (later : ByteStream.Pulled) :
    (ByteStream.Pulled.mk (bytes ++ later.bytes) later.error).whole =
      later.whole.map (bytes ++ ·) := by
  obtain ⟨own, error⟩ := later
  cases error <;> rfl

theorem whole_encodeLines (labels : Labels) (lines : List InstructionLine) :
    (encodeLines labels lines).whole =
      (lines.mapM (InstructionLine.encode labels)).map (List.flatMap wordBytes) := by
  induction lines with
  | nil => rfl
  | cons line rest ih =>
    rw [List.mapM_cons, encodeLines]
    cases line.encode labels with
    | error error => rfl
    | ok word =>
      dsimp only
      rw [ByteStream.Pulled.whole_prepend, ih]
      cases rest.mapM (InstructionLine.encode labels) <;> rfl

namespace Program

def stream (program : Program) : ByteStream := ByteStream.start program.statements program.labels

theorem bytes_eq_ok_iff {program : Program} {rom : List UInt8} :
    program.bytes = .ok rom ↔ ∃ words, List.Forall₂
      (fun line word => line.encode program.labels = .ok word) program.instructions words ∧
      words.flatMap wordBytes = rom := by
  rw [bytes, bind_eq_ok_iff]
  simp only [mapM_eq_ok_iff_forall₂, pure, Except.pure, Except.ok.injEq]

/-- The bytes of a program are what its stream gives up to the end or to its first error. -/
theorem bytes_eq_collect (program : Program) : program.bytes = program.stream.collect.1.whole := by
  rw [ByteStream.collect_eq_remaining]
  show program.bytes = (encodeLines program.labels program.instructions).whole
  rw [whole_encodeLines, bytes]
  cases program.instructions.mapM (InstructionLine.encode program.labels) <;> rfl

end Program

end Tetrad
