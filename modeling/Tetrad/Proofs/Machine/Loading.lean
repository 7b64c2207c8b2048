import Tetrad.Program.Assemble
import Tetrad.Proofs.Machine.Stepping
import Tetrad.Proofs.Program.Disassembly

namespace Tetrad

namespace Memory

/-- The bytes lie in memory one after another from an address on. -/
def Holds (memory : Memory) (start : Nat) (data : List UInt8) : Prop :=
  ∀ position byte, data[position]? = some byte → memory.read? (start + position) = some byte

variable {memory : Memory} {start position : Nat} {data rest : List UInt8}

theorem holds_ofBytes (fits : start + data.length ≤ memorySize) :
    (ofBytes start data).Holds start data := by
  intro position byte listed
  have inside := (List.getElem?_eq_some_iff.mp listed).1
  have address : start + position < memorySize := by omega
  simp [read?, ofBytes, address, listed]

theorem readWord?_of_holds {a b c d : UInt8} (holds : memory.Holds start data)
    (listed : data.drop position = a :: b :: c :: d :: rest) :
    memory.readWord? (start + position) = some (wordOfBytes a b c d) := by
  have byteAt : ∀ (offset : Nat) (byte : UInt8),
      (a :: b :: c :: d :: rest)[offset]? = some byte →
      memory.read? (start + position + offset) = some byte := by
    intro offset byte found
    rw [← listed, List.getElem?_drop] at found
    rw [Nat.add_assoc]
    exact holds _ _ found
  have first : memory.read? (start + position) = some a := byteAt 0 a rfl
  have second := byteAt 1 b rfl
  have third := byteAt 2 c rfl
  have fourth : memory.read? (start + position + 2 + 1) = some d := byteAt 3 d rfl
  simp only [readWord?, readHalf?, first, second, third, fourth, Option.bind_eq_bind,
    Option.bind_some, pure, Option.some.injEq]
  apply UInt32.toNat_inj.mp
  have := a.toNat_lt
  have := b.toNat_lt
  have := c.toNat_lt
  have := d.toNat_lt
  simp only [wordOfBytes, UInt32.toNat_ofNat', UInt16.toNat_ofNat']
  omega

end Memory

/-- The bytes of the word at a place of a program lie four times as far in. -/
theorem drop_flatMap_wordBytes {words : List UInt32} {place : Nat} {word : UInt32}
    (listed : words[place]? = some word) :
    ∃ rest, (words.flatMap wordBytes).drop (4 * place) = wordBytes word ++ rest := by
  induction words generalizing place with
  | nil => cases listed
  | cons first later ih =>
    cases place with
    | zero =>
      cases listed
      exact ⟨later.flatMap wordBytes, rfl⟩
    | succ place =>
      rw [List.flatMap_cons, Nat.mul_succ, Nat.add_comm, ← List.drop_drop]
      exact ih listed

namespace Machine

variable {σ : Type} {machine loaded : Machine σ} {table : Table} {words : List UInt32}
  {rom : List UInt8} {place : Nat}

/-- The machine has the program's table and knows where the program ends. -/
structure Carries (machine : Machine σ) (table : Table) (rom : List UInt8) : Prop where
  table : machine.table = table
  romEnd : machine.romEnd = loadAddress.toNat + rom.length

/-- The machine runs, memory holds the bytes of the program, and the program counter is at the word
of a place. -/
structure Stands (machine : Machine σ) (rom : List UInt8) (place : Nat) : Prop where
  running : machine.activity = .running
  holds : machine.memory.Holds loadAddress.toNat rom
  counter : machine.pc.toNat = loadAddress.toNat + 4 * place

theorem carries_of_load (loads : machine.load rom = .ok loaded) :
    loaded.Carries machine.table rom := by
  obtain ⟨-, rfl⟩ := load_eq_ok_iff.mp loads
  exact ⟨rfl, rfl⟩

theorem stands_of_load (loads : machine.load rom = .ok loaded) : loaded.Stands rom 0 := by
  obtain ⟨fits, rfl⟩ := load_eq_ok_iff.mp loads
  have room := loadAddress_add_romCapacity
  exact ⟨rfl, Memory.holds_ofBytes (by omega), rfl⟩

theorem Carries.fetch_eq {a b c d : UInt8} {rest : List UInt8} (carries : machine.Carries table rom)
    (stands : machine.Stands rom place) (listed : rom.drop (4 * place) = a :: b :: c :: d :: rest) :
    machine.fetch = .ok (wordOfBytes a b c d) := by
  have counter := stands.counter
  have inside := congrArg List.length listed
  simp only [List.length_drop, List.length_cons] at inside
  refine fetch_eq_ok_iff.mpr ⟨?_, ?_, ?_⟩
  · omega
  · rw [carries.romEnd]
    omega
  · rw [counter, Memory.readWord?_of_holds stands.holds listed]

/-- Where less than a word is left of the program, nothing is fetched. -/
theorem Carries.fetch_truncated (carries : machine.Carries table rom)
    (stands : machine.Stands rom place) (short : rom.length < 4 * place + 4) :
    machine.fetch = .error (.truncated machine.pc) := by
  have counter := stands.counter
  have start : ¬ machine.pc < loadAddress := by
    rw [UInt16.lt_iff_toNat_lt]
    omega
  have cut : machine.pc.toNat + 4 > machine.romEnd := by
    rw [carries.romEnd]
    omega
  rw [fetch, if_neg start, if_pos cut]

/-- A machine that carries a program and stands at a word of it executes this word. -/
theorem Carries.executes {word : UInt32} {instruction : Instruction}
    (carries : machine.Carries table (words.flatMap wordBytes))
    (stands : machine.Stands (words.flatMap wordBytes) place)
    (listed : words[place]? = some word) (decoded : table.decode word = .ok instruction) :
    machine.Executes instruction := by
  obtain ⟨rest, found⟩ := drop_flatMap_wordBytes listed
  have fetched := carries.fetch_eq stands found
  rw [wordOfBytes_wordByte] at fetched
  refine ⟨stands.running, word, fetched, ?_⟩
  rw [carries.table]
  exact decoded

/-- A machine as delivered with the given words for its program. -/
def holding (words : List UInt32) : Machine Transcript :=
  { start Table.standard Transcript.empty with
    memory := .ofBytes loadAddress.toNat (words.flatMap wordBytes)
    romEnd := loadAddress.toNat + (words.flatMap wordBytes).length }

/-- However its registers, flags and counters are, such a machine executes the word that its program
counter is at. -/
theorem executes_of_holding {machine : Machine Transcript} {word : UInt32}
    {instruction : Instruction} (words : List UInt32) (place : Nat)
    (fits : (words.flatMap wordBytes).length ≤ romCapacity)
    (same : machine =
      { holding words with
        registers := machine.registers
        flags := machine.flags
        pc := machine.pc
        steps := machine.steps })
    (counter : machine.pc.toNat = loadAddress.toNat + 4 * place)
    (listed : words[place]? = some word) (decoded : Table.standard.decode word = .ok instruction) :
    machine.Executes instruction := by
  have carries : machine.Carries Table.standard (words.flatMap wordBytes) := by
    rw [same]
    exact ⟨rfl, rfl⟩
  have room := loadAddress_add_romCapacity
  have holds : (holding words).memory.Holds loadAddress.toNat (words.flatMap wordBytes) :=
    Memory.holds_ofBytes (by omega)
  have stands : machine.Stands (words.flatMap wordBytes) place := by
    refine ⟨?_, ?_, counter⟩
    · rw [same]
      rfl
    · rw [same]
      exact holds
  exact carries.executes stands listed decoded

theorem Carries.step [Sink σ] (carries : machine.Carries table rom) :
    machine.step.1.Carries table rom :=
  ⟨machine.step_frame.1.trans carries.table, machine.step_frame.2.trans carries.romEnd⟩

theorem Carries.step_truncated [Sink σ] (carries : machine.Carries table rom)
    (stands : machine.Stands rom place) (short : rom.length < 4 * place + 4) :
    machine.step = (machine, .error (.truncated machine.pc)) :=
  step_of_fetch_error stands.running (carries.fetch_truncated stands short)

theorem Carries.stepped [Sink σ] (carries : machine.Carries table rom) (count : Nat) :
    (machine.stepped count).Carries table rom :=
  ⟨(machine.stepped_frame count).1.trans carries.table,
    (machine.stepped_frame count).2.trans carries.romEnd⟩

end Machine

end Tetrad
