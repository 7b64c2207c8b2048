import Tetrad.Proofs.Program.Stream

/-!
# Pulling a stream in pieces

However a stream is asked for its bytes, one at a time or many at once and in any mixture, it gives
the same bytes in the same order, and its error once at most and after all of them
(`ByteStream.delivers_exchanges`). What a stream still owes (`ByteStream.due`) carries this over a
run: every answer is taken from the front of it.
-/

namespace Tetrad.ByteStream

/-- What a stream is asked for: its next byte, or up to a number of bytes. -/
inductive Demand where
  | next
  | read (count : Nat)
deriving DecidableEq, Repr, Inhabited

/-- A demand with its answer. -/
inductive Exchange where
  | next (result : Option (Except AssemblyError UInt8))
  | read (count : Nat) (result : Except AssemblyError (List UInt8))
deriving Repr, Inhabited

namespace Exchange

def bytes : Exchange → List UInt8
  | next (some (.ok byte)) => [byte]
  | read _ (.ok bytes) => bytes
  | _ => []

def error? : Exchange → Option AssemblyError
  | next (some (.error error)) => some error
  | read _ (.error error) => some error
  | _ => none

end Exchange

def exchange : Demand → ByteStream → Exchange × ByteStream
  | .next, stream => stream.next.map .next id
  | .read count, stream => (stream.read count).map (.read count) id

def exchanges : List Demand → ByteStream → List Exchange
  | [], _ => []
  | demand :: rest, stream =>
    let (answer, after) := stream.exchange demand
    answer :: exchanges rest after

/-- The bytes that a run of exchanges gave. -/
def delivered (trace : List Exchange) : List UInt8 := trace.flatMap Exchange.bytes

/-- The errors that a run of exchanges gave. -/
def reported (trace : List Exchange) : List AssemblyError := trace.filterMap Exchange.error?

/-- A run of exchanges gives bytes and an error away in their order. -/
structure Delivers (whole : Pulled) (trace : List Exchange) : Prop where
  /-- The bytes come in order, with none left out. -/
  bytes : delivered trace <+: whole.bytes
  /-- No other error comes, and this one at most once. -/
  errors : reported trace <+: whole.error.toList
  /-- The error comes after all bytes. -/
  late : ∀ before answer after error, trace = before ++ answer :: after →
    answer.error? = some error → delivered before = whole.bytes
  /-- A stream without a next byte has given them all, and never has a next byte or error again. -/
  ended : ∀ before after, trace = before ++ .next none :: after →
    delivered before = whole.bytes ∧ ∀ result, .next result ∈ after → result = none
  /-- A read that asks for bytes and gets none has nothing left to wait for, not even an error. -/
  complete : ∀ before count after, trace = before ++ .read count (.ok []) :: after → 0 < count →
    delivered before = whole.bytes ∧ reported before = whole.error.toList

variable {stream after : ByteStream}

/-- What is pulled is taken from the front of what remains, and a stream that fails is spent. -/
structure Gives (stream : ByteStream) (pulled : Pulled) (after : ByteStream) : Prop where
  bytes : stream.remaining.bytes = pulled.bytes ++ after.remaining.bytes
  error : stream.remaining.error = pulled.error.or after.remaining.error
  spent : ∀ error, pulled.error = some error → after.remaining = ⟨[], none⟩
  held : after.held = stream.held

theorem gives_pull (count : Nat) (stream : ByteStream) :
    Gives stream (stream.pull count).1 (stream.pull count).2 := by
  induction count generalizing stream with
  | zero =>
    refine ⟨rfl, rfl, ?_, rfl⟩
    intro error failed
    cases failed
  | succ count ih =>
    rcases next_cases stream with ⟨byte, after, answer, -, left⟩ |
      ⟨error, after, answer, left, spent⟩ | ⟨answer, left⟩
    · have kept : after.held = stream.held := held_of_next answer
      have later := ih after
      simp only [pull, answer]
      refine ⟨?_, ?_, later.spent, later.held.trans kept⟩
      · rw [left, later.bytes, List.cons_append]
      · rw [left]
        exact later.error
    · have kept : after.held = stream.held := held_of_next answer
      simp only [pull, answer]
      refine ⟨?_, ?_, fun _ _ => spent, kept⟩
      · rw [left, spent, List.append_nil]
      · rw [left, Option.some_or]
    · simp only [pull, answer]
      refine ⟨?_, ?_, ?_, rfl⟩
      · rw [List.nil_append]
      · rw [Option.none_or]
      · intro error failed
        cases failed

/-- Pulls that give nothing find nothing. -/
theorem remaining_of_pull_eq_nil {count : Nat} (asked : 0 < count)
    (nothing : (stream.pull count).1 = ⟨[], none⟩) : stream.remaining = ⟨[], none⟩ := by
  obtain ⟨count, rfl⟩ := Nat.exists_eq_add_one_of_ne_zero (Nat.ne_of_gt asked)
  rcases next_cases stream with ⟨byte, after, answer, -, -⟩ | ⟨error, after, answer, -, -⟩ |
    ⟨-, left⟩
  · simp [pull, answer] at nothing
  · simp [pull, answer] at nothing
  · exact left

/-- A stream that holds an error back has nothing else to give. -/
def Settled (stream : ByteStream) : Prop :=
  ∀ error, stream.held = some error → stream.remaining = ⟨[], none⟩

/-- What a stream owes: the bytes that remain, and the error that is held back or still ahead. -/
def due (stream : ByteStream) : Pulled :=
  ⟨stream.remaining.bytes, stream.held.or stream.remaining.error⟩

theorem Settled.held_eq_none (settled : stream.Settled) (more : stream.remaining ≠ ⟨[], none⟩) :
    stream.held = none := by
  cases holds : stream.held with
  | none => rfl
  | some error => exact absurd (settled error holds) more

theorem settled_of_held_eq_none (free : stream.held = none) : stream.Settled := by
  intro error holds
  rw [free] at holds
  cases holds

/-- An answer is taken from the front of what is due, and with an error nothing is due any more. -/
structure Turn (stream : ByteStream) (answer : Exchange) (after : ByteStream) : Prop where
  bytes : stream.due.bytes = answer.bytes ++ after.due.bytes
  error : stream.due.error = answer.error?.or after.due.error
  spent : ∀ error, answer.error? = some error → stream.due.bytes = [] ∧ after.due = ⟨[], none⟩
  settled : after.Settled

theorem turn_next (settled : stream.Settled) : Turn stream (.next stream.next.1) stream.next.2 := by
  rcases next_cases stream with ⟨byte, after, answer, -, left⟩ |
    ⟨error, after, answer, left, spent⟩ | ⟨answer, left⟩
  · have free : stream.held = none := settled.held_eq_none (by simp [left])
    have kept : after.held = none := (held_of_next answer).trans free
    rw [answer]
    refine ⟨?_, ?_, ?_, settled_of_held_eq_none kept⟩
    · simp only [due, left, Exchange.bytes, List.cons_append, List.nil_append]
    · simp only [due, left, free, kept, Exchange.error?, Option.none_or]
    · intro error failed
      cases failed
  · have free : stream.held = none := settled.held_eq_none (by simp [left])
    have kept : after.held = none := (held_of_next answer).trans free
    have nothing : after.due = ⟨[], none⟩ := by simp only [due, spent, kept, Option.or_none]
    rw [answer]
    refine ⟨?_, ?_, fun _ _ => ⟨?_, nothing⟩, fun _ _ => spent⟩
    · rw [nothing]
      simp only [due, left, Exchange.bytes, List.append_nil]
    · simp only [due, left, free, Exchange.error?, Option.none_or, Option.some_or]
    · simp only [due, left]
  · rw [answer]
    refine ⟨rfl, rfl, ?_, settled⟩
    intro error failed
    cases failed

/-- A read without a held error is a run of pulls whose error, if bytes stand before it, is held. -/
theorem read_of_free (free : stream.held = none) (count : Nat) :
    (∃ error after, stream.pull count = (⟨[], some error⟩, after) ∧
      stream.read count = (.error error, after)) ∨
    (∃ pulled after, stream.pull count = (pulled, after) ∧
      (pulled.bytes = [] → pulled.error = none) ∧
      stream.read count = (.ok pulled.bytes, { after with held := pulled.error })) := by
  cases gave : stream.pull count with
  | mk pulled after =>
    obtain ⟨bytes, error⟩ := pulled
    cases bytes with
    | nil =>
      cases error with
      | none => exact .inr ⟨_, after, rfl, fun _ => rfl, by simp only [read, free, gave]⟩
      | some error => exact .inl ⟨error, after, rfl, by simp only [read, free, gave]⟩
    | cons byte rest =>
      refine .inr ⟨_, after, rfl, ?_, by simp only [read, free, gave]⟩
      intro empty
      cases empty

theorem turn_read (settled : stream.Settled) (count : Nat) :
    Turn stream (.read count (stream.read count).1) (stream.read count).2 := by
  cases holds : stream.held with
  | some error =>
    have left := settled error holds
    have nothing : due { stream with held := none } = ⟨[], none⟩ := by
      show Pulled.mk stream.remaining.bytes stream.remaining.error = _
      rw [left]
    simp only [read, holds]
    refine ⟨?_, ?_, fun _ _ => ⟨?_, nothing⟩, settled_of_held_eq_none rfl⟩
    · rw [nothing]
      simp only [due, left, Exchange.bytes, List.append_nil]
    · simp only [due, holds, Exchange.error?, Option.some_or]
    · simp only [due, left]
  | none =>
    have gives := gives_pull count stream
    rcases read_of_free holds count with ⟨error, after, gave, answer⟩ |
      ⟨pulled, after, gave, bare, answer⟩
    · rw [gave] at gives
      rw [answer]
      have spent := gives.spent error rfl
      have free : after.held = none := gives.held.trans holds
      have nothing : after.due = ⟨[], none⟩ := by simp only [due, spent, free, Option.or_none]
      have empty : stream.remaining.bytes = [] := by rw [gives.bytes, spent, List.append_nil]
      refine ⟨?_, ?_, fun _ _ => ⟨empty, nothing⟩, settled_of_held_eq_none free⟩
      · rw [nothing]
        exact empty
      · simp only [due, holds, gives.error, Exchange.error?, Option.none_or, Option.some_or]
    · rw [gave] at gives
      rw [answer]
      refine ⟨gives.bytes, ?_, ?_, ?_⟩
      · simp only [due, holds, gives.error, Exchange.error?, Option.none_or]
        rfl
      · intro error failed
        cases failed
      · intro error held
        exact gives.spent error held

theorem turn_exchange (settled : stream.Settled) (demand : Demand) :
    Turn stream (stream.exchange demand).1 (stream.exchange demand).2 := by
  cases demand with
  | next => exact turn_next settled
  | read count => exact turn_read settled count

theorem due_of_read_eq_nil {count : Nat} (asked : 0 < count)
    (nothing : (stream.read count).1 = .ok []) : stream.due = ⟨[], none⟩ := by
  cases holds : stream.held with
  | some error => simp [read, holds] at nothing
  | none =>
    rcases read_of_free holds count with ⟨error, after, -, answer⟩ |
      ⟨pulled, after, gave, bare, answer⟩
    · rw [answer] at nothing
      cases nothing
    · rw [answer] at nothing
      have empty : pulled.bytes = [] := Except.ok.inj nothing
      have gave : (stream.pull count).1 = ⟨[], none⟩ := by
        rw [gave, ← empty, ← bare empty]
      rw [due, remaining_of_pull_eq_nil asked gave, holds, Option.none_or]

theorem exchanges_cons (demand : Demand) (rest : List Demand) (stream : ByteStream) :
    stream.exchanges (demand :: rest) =
      (stream.exchange demand).1 :: (stream.exchange demand).2.exchanges rest := rfl

theorem exchange_of_spent (spent : stream.remaining = ⟨[], none⟩) (demand : Demand) :
    (stream.exchange demand).2.remaining = ⟨[], none⟩ ∧
      ∀ result, (stream.exchange demand).1 = .next result → result = none := by
  cases demand with
  | next =>
    rcases next_cases stream with ⟨byte, after, -, -, left⟩ | ⟨error, after, -, left, -⟩ |
      ⟨answer, left⟩
    · rw [left] at spent
      cases spent
    · rw [left] at spent
      cases spent
    · simp only [exchange, answer]
      refine ⟨left, ?_⟩
      intro result same
      cases same
      rfl
  | read count =>
    have other : ∀ result, (stream.exchange (.read count)).1 = .next result → result = none := by
      intro result same
      cases same
    refine ⟨?_, other⟩
    cases holds : stream.held with
    | some error =>
      simp only [exchange, read, holds]
      exact spent
    | none =>
      have gives := gives_pull count stream
      have bytes := gives.bytes
      have error := gives.error
      rw [spent, List.nil_eq_append_iff] at bytes
      rw [spent, eq_comm, Option.or_eq_none_iff] at error
      have left : (stream.pull count).2.remaining = ⟨[], none⟩ :=
        congrArg₂ Pulled.mk bytes.2 error.2
      rcases read_of_free holds count with ⟨error, after, gave, answer⟩ |
        ⟨pulled, after, gave, -, answer⟩
      · rw [gave] at left
        simp only [exchange, answer]
        exact left
      · rw [gave] at left
        simp only [exchange, answer]
        exact left

theorem next_eq_none_of_spent (spent : stream.remaining = ⟨[], none⟩) (demands : List Demand) :
    ∀ result, .next result ∈ stream.exchanges demands → result = none := by
  induction demands generalizing stream with
  | nil =>
    intro result asked
    cases asked
  | cons demand rest ih =>
    intro result asked
    obtain ⟨later, bare⟩ := exchange_of_spent spent demand
    rcases List.mem_cons.mp asked with first | asked
    · exact bare result first.symm
    · exact ih later result asked

/-- A stream whose answer to `next` is that there is no byte has nothing left. -/
theorem spent_of_exchange_eq {demand : Demand} (answer : (stream.exchange demand).1 = .next none) :
    stream.remaining = ⟨[], none⟩ := by
  cases demand with
  | read count => cases answer
  | next =>
    have answer : stream.next.1 = none := Exchange.next.inj answer
    rcases next_cases stream with ⟨byte, after, gave, -, -⟩ | ⟨error, after, gave, -, -⟩ | ⟨-, left⟩
    · simp [gave] at answer
    · simp [gave] at answer
    · exact left

theorem Turn.errors {answer : Exchange} (turn : Turn stream answer after) :
    stream.due.error.toList = answer.error?.toList ++ after.due.error.toList := by
  rw [turn.error]
  cases failed : answer.error? with
  | none => rfl
  | some error =>
    obtain ⟨-, nothing⟩ := turn.spent error failed
    rw [nothing, Option.or_none, Option.toList_none, List.append_nil]

theorem reported_cons (answer : Exchange) (trace : List Exchange) :
    reported (answer :: trace) = answer.error?.toList ++ reported trace := by
  unfold reported
  cases failed : answer.error? with
  | none => rw [List.filterMap_cons_none failed]; rfl
  | some error => rw [List.filterMap_cons_some failed]; rfl

theorem delivered_cons (answer : Exchange) (trace : List Exchange) :
    delivered (answer :: trace) = answer.bytes ++ delivered trace := List.flatMap_cons

/-- A run of exchanges gives what the stream owes. The induction is on the demands: the first answer
is the front of what is due, and the rest of the run gives what is due after it. -/
theorem delivers_of_settled (settled : stream.Settled) (demands : List Demand) :
    Delivers stream.due (stream.exchanges demands) := by
  induction demands generalizing stream with
  | nil =>
    refine ⟨List.nil_prefix, List.nil_prefix, ?_, ?_, ?_⟩
    · intro before answer after error split
      simp [exchanges] at split
    · intro before after split
      simp [exchanges] at split
    · intro before count after split
      simp [exchanges] at split
  | cons demand rest ih =>
    have turn := turn_exchange settled demand
    have later := ih turn.settled
    rw [exchanges_cons]
    refine ⟨?_, ?_, ?_, ?_, ?_⟩
    · rw [delivered_cons, turn.bytes]
      exact (List.prefix_append_right_inj _).mpr later.bytes
    · rw [reported_cons, turn.errors]
      exact (List.prefix_append_right_inj _).mpr later.errors
    · intro before answer after error split failed
      rcases List.cons_eq_append_iff.mp split with ⟨rfl, own⟩ | ⟨others, rfl, within⟩
      · cases own
        exact (turn.spent error failed).1.symm
      · rw [delivered_cons, turn.bytes, later.late others answer after error within failed]
    · intro before after split
      rcases List.cons_eq_append_iff.mp split with ⟨rfl, own⟩ | ⟨others, rfl, within⟩
      · obtain ⟨ended, rfl⟩ := List.cons.inj own
        have spent := spent_of_exchange_eq ended.symm
        refine ⟨?_, next_eq_none_of_spent (exchange_of_spent spent demand).1 rest⟩
        rw [due, spent]
        rfl
      · obtain ⟨all, bare⟩ := later.ended others after within
        rw [delivered_cons, turn.bytes, all]
        exact ⟨rfl, bare⟩
    · intro before count after split asked
      rcases List.cons_eq_append_iff.mp split with ⟨rfl, own⟩ | ⟨others, rfl, within⟩
      · obtain ⟨empty, -⟩ := List.cons.inj own
        have nothing : stream.due = ⟨[], none⟩ := by
          cases demand with
          | next => cases empty
          | read own =>
            obtain ⟨rfl, answer⟩ := Exchange.read.inj empty
            exact due_of_read_eq_nil asked answer.symm
        rw [nothing]
        exact ⟨rfl, rfl⟩
      · obtain ⟨all, told⟩ := later.complete others count after within asked
        rw [delivered_cons, reported_cons, turn.bytes, turn.errors, all, told]
        exact ⟨rfl, rfl⟩

/-- However its bytes are asked for, the stream of a program's instructions gives those of the words
up to the first instruction without one, and then the error of that instruction. -/
theorem delivers_exchanges (statements : List Statement) (labels : Labels) (demands : List Demand) :
    Delivers (encodeLines labels (statements.filterMap Statement.instruction?))
      ((start statements labels).exchanges demands) := by
  have settled : (start statements labels).Settled := settled_of_held_eq_none rfl
  exact delivers_of_settled settled demands

/-- A jump without a label behind one whole instruction: the read that meets it keeps its bytes, the
error waits for the next read, and nothing comes after it. -/
theorem delivers_exchanges_short_read :
    ∃ statements error,
      Statement.parse Table.standard "PRINT r1\nJMP .end" = .ok statements ∧
      error.cause = .undefinedLabel "end" ∧
      encodeLines ⟨0x200, []⟩ (statements.filterMap Statement.instruction?) =
        ⟨[0x19, 0x10, 0, 0], some error⟩ ∧
      (start statements ⟨0x200, []⟩).exchanges [.next, .read 16, .next, .read 0, .read 1] =
        [.next (some (.ok 0x19)), .read 16 (.ok [0x10, 0, 0]), .next none, .read 0 (.error error),
          .read 1 (.ok [])] ∧
      Delivers (encodeLines ⟨0x200, []⟩ (statements.filterMap Statement.instruction?))
        ((start statements ⟨0x200, []⟩).exchanges [.next, .read 16, .next, .read 0, .read 1]) :=
  ⟨_, ⟨⟨2, 4⟩, .undefinedLabel "end"⟩, rfl, rfl, rfl, rfl,
    delivers_exchanges _ ⟨0x200, []⟩ [.next, .read 16, .next, .read 0, .read 1]⟩

end Tetrad.ByteStream
