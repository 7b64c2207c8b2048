import Tetrad.Proofs.Machine.Loading

/-!
# A machine and the listing of its program

A listing cuts the bytes of a program into words without a machine, and a machine reads them from
its memory. Both find the same: the line of a listing tells what the machine does at the place of
the line (`Machine.Obeys`), as long as memory holds the program.
-/

namespace Tetrad

variable {table : Table} {word : UInt32}

/-- The line of a place is the first one of the bytes from there on. -/
theorem Listing.getElem?_fromAddress (table : Table) (address : UInt16) (rom : List UInt8)
    (place : Nat) : (fromAddress table address rom)[place]? =
      (fromAddress table (address + UInt16.ofNat (4 * place)) (rom.drop (4 * place))).head? := by
  induction place generalizing address rom with
  | zero =>
    have start : address + UInt16.ofNat (4 * 0) = address := UInt16.add_zero address
    rw [start, List.head?_eq_getElem?]
    rfl
  | succ place ih =>
    match rom with
    | a :: b :: c :: d :: rest =>
      have later : address + 4 + UInt16.ofNat (4 * place) =
          address + UInt16.ofNat (4 * (place + 1)) := by
        rw [Nat.mul_succ, UInt16.ofNat_add, UInt16.add_assoc, UInt16.add_comm 4]
        rfl
      rw [fromAddress, List.getElem?_cons_succ, ih, later, Nat.mul_succ]
      rfl
    | [] | [_] | [_, _] | [_, _, _] =>
      rw [List.drop_eq_nil_of_le (by simp only [List.length_cons, List.length_nil]; omega)]
      rfl

/-- The top five bits of a word are the number of an opcode that the table has a form for. -/
def Table.Defines (table : Table) (word : UInt32) : Prop :=
  ∃ opcode form, Opcode.ofNumber? (word.toNat / 2 ^ 27) = some opcode ∧
    table.byOpcode? opcode = some form

theorem FieldSource.readOperands_ne_unknownOpcode {ρ : Type} [FieldSource ρ] (source : ρ)
    (tag position : Nat) (sets : List ModeSet) (number : Nat) :
    (readOperands source tag position sets).1 ≠ .error (.unknownOpcode number) := by
  fun_induction readOperands source tag position sets with
  | case1 => exact nofun
  | case2 => exact nofun
  | case3 source position set sets mode named reason rest tooWide =>
    unfold readOperand at tooWide
    split at tooWide
    · cases tooWide
      exact nofun
    · cases tooWide
  | case4 source position set sets mode named operand rest taken others last later ih =>
    intro failed
    rw [later] at ih
    exact ih (map_eq_error_iff.mp failed)

/-- A word has an unknown opcode just if its table does not define it. -/
theorem Table.decode_eq_unknownOpcode_iff :
    (∃ number, table.decode word = .error (.unknownOpcode number)) ↔ ¬ table.Defines word := by
  have number : ((Cursor.ofWord word).take Opcode.width).1 = word.toNat / 2 ^ 27 :=
    Nat.shiftRight_eq_div_pow _ _
  unfold decode read Defines
  rw [Cursor.take_source]
  dsimp only
  rw [number]
  cases named : (Opcode.ofNumber? (word.toNat / 2 ^ 27)).bind table.byOpcode? with
  | none =>
    refine iff_of_true ⟨_, rfl⟩ ?_
    rintro ⟨opcode, form, known, found⟩
    rw [known, Option.bind_some, found] at named
    cases named
  | some form =>
    refine iff_of_false ?_ ?_
    · rintro ⟨other, failed⟩
      exact FieldSource.readOperands_ne_unknownOpcode _ _ _ _ _ (map_eq_error_iff.mp failed)
    · obtain ⟨opcode, known, found⟩ := Option.bind_eq_some_iff.mp named
      exact not_not.mpr ⟨opcode, form, known, found⟩

namespace Machine

variable {σ : Type} [Sink σ] {machine : Machine σ} {rom : List UInt8} {place : Nat}

/-- The next step is what the line at the program counter says, or what the end of the program says
where there is none. An instruction is executed. A word that is no instruction halts the machine if
its opcode is unknown, without a change of anything else, and is a fault otherwise. Less than a word
is a fault, too. -/
inductive Obeys (machine : Machine σ) : Option ListingLine → Prop
  | instruction {word : UInt32} {instruction : Instruction} (executes : machine.Executes instruction)
      (step : machine.step = machine.execute instruction)
      (counts : machine.step.1.steps = machine.steps + 1) :
      Obeys machine (some (.instruction machine.pc word instruction))
  | unknown {word : UInt32} (undefined : ¬ machine.table.Defines word)
      (step : machine.step = ({ machine with activity := .halted }, .ok .halted)) :
      Obeys machine (some (.word machine.pc word))
  | malformed {word : UInt32} (defined : machine.table.Defines word)
      (step : machine.step = (machine, .error (.malformed machine.pc word))) :
      Obeys machine (some (.word machine.pc word))
  | trailing {bytes : List UInt8}
      (step : machine.step = (machine, .error (.truncated machine.pc))) :
      Obeys machine (some (.trailing machine.pc bytes))
  | past (step : machine.step = (machine, .error (.truncated machine.pc))) : Obeys machine none

theorem Obeys.executes {address : UInt16} {instruction : Instruction}
    (obeys : machine.Obeys (some (.instruction address word instruction))) :
    machine.Executes instruction := by
  cases obeys with
  | instruction executes => exact executes

theorem obeys_of_fetch (running : machine.activity = .running)
    (fetched : machine.fetch = .ok word) :
    machine.Obeys (some (Listing.lineOfWord machine.table machine.pc word)) := by
  have step := step_of_current running
  unfold current at step
  rw [fetched] at step
  unfold Listing.lineOfWord
  cases decoded : machine.table.decode word with
  | ok instruction =>
    have executes : machine.Executes instruction := ⟨running, word, fetched, decoded⟩
    refine .instruction executes executes.step_eq ?_
    rw [executes.step_eq, steps_execute]
  | error reason =>
    by_cases defined : machine.table.Defines word
    · refine .malformed defined ?_
      have known : ∀ number, reason ≠ .unknownOpcode number := by
        rintro number rfl
        exact Table.decode_eq_unknownOpcode_iff.mp ⟨number, decoded⟩ defined
      rw [step]
      cases reason with
      | unknownOpcode number => exact absurd rfl (known number)
      | _ => simp only [decoded]
    · refine .unknown defined ?_
      obtain ⟨number, unknown⟩ := Table.decode_eq_unknownOpcode_iff.mpr defined
      simp only [step, unknown]

/-- A machine that carries a program obeys the line of the place that it stands at. -/
theorem Carries.obeys (carries : machine.Carries table rom) (stands : machine.Stands rom place) :
    machine.Obeys (Listing.ofRom table rom)[place]? := by
  have address : loadAddress + UInt16.ofNat (4 * place) = machine.pc := by
    rw [← UInt16.ofNat_toNat (x := machine.pc), stands.counter, UInt16.ofNat_add,
      UInt16.ofNat_toNat]
  rw [Listing.ofRom, Listing.getElem?_fromAddress, address]
  match left : rom.drop (4 * place) with
  | a :: b :: c :: d :: rest =>
    have fetched := carries.fetch_eq stands left
    have obeys := obeys_of_fetch stands.running fetched
    rw [carries.table] at obeys
    exact obeys
  | [] =>
    have short := List.drop_eq_nil_iff.mp left
    exact .past (carries.step_truncated stands (by omega))
  | [_] | [_, _] | [_, _, _] =>
    have short := congrArg List.length left
    simp only [List.length_drop, List.length_cons, List.length_nil] at short
    exact .trailing (carries.step_truncated stands (by omega))

/-- A program that fits is loaded, and however often the machine is stepped then: if it runs at the
place of a line of the listing, or right behind the last line, and memory still holds the program,
then it obeys the line. -/
theorem obeys_of_load (machine : Machine σ) (rom : List UInt8) (fits : rom.length ≤ 3584) :
    ∃ loaded, machine.load rom = .ok loaded ∧ loaded.Stands rom 0 ∧
      ∀ count place, (loaded.stepped count).Stands rom place →
        (loaded.stepped count).Obeys (Listing.ofRom machine.table rom)[place]? := by
  obtain ⟨loaded, loads⟩ := exists_load fits machine
  refine ⟨loaded, loads, stands_of_load loads, fun count place stands => ?_⟩
  exact ((carries_of_load loads).stepped count).obeys stands

/-- Three lines: a print, a word with an unknown opcode, and a byte behind the last word. -/
def printThenUnknown : List UInt8 := [0x19, 0x10, 0, 0, 0xF8, 0, 0, 0, 7]

theorem obeys_of_load_unknown : printThenUnknown.length ≤ 3584 ∧
    ∃ loaded, (start Table.standard Transcript.empty).load printThenUnknown = .ok loaded ∧
      loaded.Obeys (some (.instruction 0x200 0x19100000 ⟨.print, [.register ⟨1⟩]⟩)) ∧
      (loaded.stepped 1).Stands printThenUnknown 1 ∧
      (loaded.stepped 1).Obeys (some (.word 0x204 0xF8000000)) ∧
      ¬ Table.standard.Defines 0xF8000000 := by
  have fits : printThenUnknown.length ≤ 3584 := by decide
  obtain ⟨loaded, loads, stands, obeys⟩ :=
    obeys_of_load (start Table.standard Transcript.empty) printThenUnknown fits
  have prints : loaded.Obeys (some (.instruction 0x200 0x19100000 ⟨.print, [.register ⟨1⟩]⟩)) :=
    obeys 0 0 stands
  have next : (loaded.stepped 1).Stands printThenUnknown 1 := by
    have step := prints.executes.step_eq
    rw [stepped_succ, step]
    obtain ⟨-, rfl⟩ := load_eq_ok_iff.mp loads
    exact ⟨rfl, stands.holds, rfl⟩
  refine ⟨fits, loaded, loads, prints, next, obeys 1 1 next, ?_⟩
  exact Table.decode_eq_unknownOpcode_iff.mp ⟨31, rfl⟩

end Machine

end Tetrad
