import Tetrad.Proofs.Machine.Reachable
import Tetrad.Proofs.Machine.Sinks

/-!
# Loading forgets what was run before

What a machine does depends on its sink only where a text is refused. Over a sink that takes every
text (`Sink.Accepting`) a machine steps as over any other one of these (`Machine.step_withSink`), so
machines that are the same but for their sinks cannot be told apart
(`Machine.indistinguishable_of_silent`). A load leaves such machines, whatever was run before it
(`Machine.forgets_after`).
-/

namespace Tetrad

namespace Sink

variable {σ : Type} [Sink σ] {property : σ → Prop} {out : σ}

/-- From now on no text is refused, whatever is written before it. -/
def Accepting (out : σ) : Prop := ∀ texts, (writeAll out texts).2 = none

theorem Takes.accepting (takes : Takes property) (holds : property out) : Accepting out :=
  fun texts => takes.writeAll holds texts

theorem Accepting.writeAll_eq (accepting : Accepting out) (texts : List String) :
    writeAll out texts = ((writeAll out texts).1, none) := Prod.ext rfl (accepting texts)

theorem Accepting.writeAll_append (accepting : Accepting out) (texts later : List String) :
    writeAll out (texts ++ later) = writeAll (writeAll out texts).1 later := by
  have taken := accepting.writeAll_eq texts
  clear accepting
  induction texts generalizing out with
  | nil => rfl
  | cons text rest ih =>
    rw [List.cons_append, writeAll]
    rw [writeAll] at taken ⊢
    split at taken
    · cases taken
    · exact ih taken

theorem Accepting.after_writeAll (accepting : Accepting out) (texts : List String) :
    Accepting (writeAll out texts).1 := by
  intro later
  rw [← accepting.writeAll_append]
  exact accepting (texts ++ later)

/-- A sink that keeps nothing. -/
instance : Sink Unit := ⟨fun _ _ => ((), none)⟩

theorem accepting_unit (out : Unit) : Accepting out := by
  have takes : Takes fun _ : Unit => True := ⟨fun _ _ _ => trivial, fun _ _ _ => rfl⟩
  exact takes.accepting trivial

end Sink

/-- The texts that an effect writes. -/
def Effect.texts : Effect → List String
  | .print value => printed value
  | _ => []

namespace Machine

variable {σ τ : Type} [Sink σ] [Sink τ] {first : Machine σ} {second : Machine τ}

def withSink {σ τ : Type} (machine : Machine σ) (out : τ) : Machine τ :=
  { machine with out := out }

/-- The machine over a sink that keeps nothing, which is all of it but its output. -/
def silent {σ : Type} (machine : Machine σ) : Machine Unit := machine.withSink ()

/-- The texts that the next step writes. -/
def written {σ : Type} (machine : Machine σ) : List String :=
  match machine.activity, machine.current with
  | .running, .ok (some instruction) =>
    match machine.plan instruction with
    | .ok effect => effect.texts
    | .error _ => []
  | _, _ => []

/-- The texts that a number of steps write. -/
def writtenBy (machine : Machine Unit) : Nat → List String
  | 0 => []
  | count + 1 => machine.writtenBy count ++ (machine.stepped count).written

/-- An effect comes to the same over every sink that refuses nothing. -/
theorem perform_withSink (machine : Machine Unit) {out : τ} (accepting : Sink.Accepting out)
    (effect : Effect) : (machine.withSink out).perform effect =
      ((machine.perform effect).1.withSink (Sink.writeAll out effect.texts).1,
        (machine.perform effect).2) := by
  cases effect with
  | print value =>
    have taken : Sink.writeAll (machine.withSink out).out (printed value) =
        ((Sink.writeAll out (printed value)).1, none) := accepting.writeAll_eq _
    have unheard := (Sink.accepting_unit machine.out).writeAll_eq (printed value)
    rw [perform_print, perform_print, taken, unheard]
    rfl
  | _ => rfl

/-- So does a step: the instruction that is found and its plan do not depend on the sink. -/
theorem step_withSink (machine : Machine Unit) {out : τ} (accepting : Sink.Accepting out) :
    (machine.withSink out).step =
      (machine.step.1.withSink (Sink.writeAll out machine.written).1, machine.step.2) := by
  have current : (machine.withSink out).current = machine.current := rfl
  cases activity : machine.activity with
  | halted =>
    have halted : (machine.withSink out).activity = .halted := activity
    have nothing : machine.written = [] := by simp only [written, activity]
    rw [step_of_halted activity, step_of_halted halted, nothing]
    rfl
  | running =>
    have running : (machine.withSink out).activity = .running := activity
    rw [step_of_current activity, step_of_current running, current]
    cases found : machine.current with
    | error fault =>
      have nothing : machine.written = [] := by simp only [written, activity, found]
      rw [nothing]
      rfl
    | ok one =>
      cases one with
      | none =>
        have nothing : machine.written = [] := by simp only [written, activity, found]
        rw [nothing]
        rfl
      | some instruction =>
        have plan : (machine.withSink out).plan instruction = machine.plan instruction := rfl
        dsimp only
        rw [execute_eq, execute_eq, plan]
        cases planned : machine.plan instruction with
        | error fault =>
          have nothing : machine.written = [] := by
            simp only [written, activity, found, planned]
          rw [nothing]
          rfl
        | ok effect =>
          have texts : machine.written = effect.texts := by
            simp only [written, activity, found, planned]
          rw [texts]
          exact perform_withSink machine.counted accepting effect

theorem stepped_withSink (machine : Machine Unit) {out : τ} (accepting : Sink.Accepting out)
    (count : Nat) : (machine.withSink out).stepped count =
      (machine.stepped count).withSink (Sink.writeAll out (machine.writtenBy count)).1 := by
  induction count with
  | zero => rfl
  | succ count ih =>
    have later := accepting.after_writeAll (machine.writtenBy count)
    rw [stepped_succ_apply, ih, step_withSink _ later, stepped_succ_apply, writtenBy,
      accepting.writeAll_append]

/-- Nothing that is done with two machines from now on tells them apart: every step returns the
same result, after any number of steps the machines are the same but for their sinks, and what was
written to these meanwhile are the same texts, none of them refused. -/
structure Indistinguishable (first : Machine σ) (second : Machine τ) : Prop where
  results : ∀ count, (first.stepped count).step.2 = (second.stepped count).step.2
  states : ∀ count, (first.stepped count).silent = (second.stepped count).silent
  outputs : ∀ count, ∃ texts,
    Sink.writeAll first.out texts = ((first.stepped count).out, none) ∧
    Sink.writeAll second.out texts = ((second.stepped count).out, none)

/-- Each step returns what the machine without its output returns, and writes what it writes. -/
theorem step_stepped (accepting : Sink.Accepting first.out) (count : Nat) :
    (first.stepped count).step.2 = (first.silent.stepped count).step.2 ∧
      (first.stepped count).silent = first.silent.stepped count ∧
      Sink.writeAll first.out (first.silent.writtenBy count) =
        ((first.stepped count).out, none) := by
  have goes : first.stepped count = (first.silent.stepped count).withSink
      (Sink.writeAll first.out (first.silent.writtenBy count)).1 :=
    stepped_withSink first.silent accepting count
  have later := accepting.after_writeAll (first.silent.writtenBy count)
  rw [goes, step_withSink _ later]
  exact ⟨rfl, rfl, accepting.writeAll_eq _⟩

theorem indistinguishable_of_silent (same : first.silent = second.silent)
    (accepting : Sink.Accepting first.out) (acceptingToo : Sink.Accepting second.out) :
    first.Indistinguishable second := by
  have one := step_stepped accepting
  have other := step_stepped acceptingToo
  rw [same] at one
  refine ⟨fun count => ?_, fun count => ?_, fun count => ?_⟩
  · exact (one count).1.trans (other count).1.symm
  · exact (one count).2.1.trans (other count).2.1.symm
  · exact ⟨_, (one count).2.2, (other count).2.2⟩

omit [Sink σ] in
theorem out_of_load {machine loaded : Machine σ} {rom : List UInt8}
    (loads : machine.load rom = .ok loaded) : loaded.out = machine.out := by
  obtain ⟨-, rfl⟩ := load_eq_ok_iff.mp loads
  rfl

omit [Sink σ] in
/-- But for its output, a loaded machine is made of the table and the program alone. -/
theorem load_silent {machine loaded : Machine σ} {rom : List UInt8}
    (loads : machine.load rom = .ok loaded) :
    (start machine.table ()).load rom = .ok loaded.silent := by
  obtain ⟨fits, rfl⟩ := load_eq_ok_iff.mp loads
  exact load_eq_ok_iff.mpr ⟨fits, rfl⟩

theorem call_frame (machine : Machine σ) (call : Call) :
    (machine.call call).table = machine.table := by
  cases call with
  | step => exact machine.step_frame.1
  | load rom =>
    cases loads : machine.load rom with
    | error fault => simp only [Machine.call, loads]
    | ok loaded =>
      obtain ⟨-, rfl⟩ := load_eq_ok_iff.mp loads
      simp only [Machine.call, loads]
      rfl

theorem after_frame (machine : Machine σ) (calls : List Call) :
    (machine.after calls).table = machine.table := by
  induction calls generalizing machine with
  | nil => rfl
  | cons call rest ih => exact (ih _).trans (machine.call_frame call)

theorem accepting_after (accepting : Sink.Accepting first.out) (calls : List Call) :
    Sink.Accepting (first.after calls).out := by
  induction calls generalizing first with
  | nil => exact accepting
  | cons call rest ih =>
    refine ih ?_
    cases call with
    | step =>
      have goes : first.stepped 1 = first.step.1 := rfl
      have writes := (step_stepped accepting 1).2.2
      have kept := accepting.after_writeAll (first.silent.writtenBy 1)
      rw [writes, goes] at kept
      exact kept
    | load rom =>
      cases loads : first.load rom with
      | error fault =>
        simp only [Machine.call, loads]
        exact accepting
      | ok loaded =>
        simp only [Machine.call, loads]
        rw [out_of_load loads]
        exact accepting

/-- A load forgets what the machine did before it. A program without room in memory is refused, and
the machine stays as it is. One that fits is loaded, with the output left as it is, and then nothing
tells the machine apart from a fresh one with the same table and program, whatever the sink of that
one is, if neither sink refuses a text from then on. -/
structure Forgets (machine : Machine σ) (table : Table) (rom : List UInt8) : Prop where
  refused : 3584 < rom.length →
    machine.load rom = .error (.romTooLarge rom.length) ∧ machine.call (.load rom) = machine
  loaded : rom.length ≤ 3584 → ∃ loaded, machine.load rom = .ok loaded ∧
    machine.call (.load rom) = loaded ∧ loaded.out = machine.out ∧
    ∀ (τ : Type) [Sink τ] (out : τ), ∃ fresh, (start table out).load rom = .ok fresh ∧
      (Sink.Accepting machine.out → Sink.Accepting out → loaded.Indistinguishable fresh)

/-- Whatever was loaded and stepped before, with or without success, a load forgets it. -/
theorem forgets_after (table : Table) (out : σ) (calls : List Call) (rom : List UInt8) :
    ((start table out).after calls).Forgets table rom := by
  have framed : ((start table out).after calls).table = table := after_frame _ calls
  generalize (start table out).after calls = machine at framed
  refine ⟨fun large => ?_, fun fits => ?_⟩
  · have refused : machine.load rom = .error (.romTooLarge rom.length) :=
      load_eq_error_iff.mpr ⟨large, rfl⟩
    exact ⟨refused, by simp only [Machine.call, refused]⟩
  · have room : rom.length ≤ romCapacity := fits
    obtain ⟨loaded, loads⟩ := exists_load room machine
    have kept : loaded.out = machine.out := out_of_load loads
    refine ⟨loaded, loads, by simp only [Machine.call, loads], kept, ?_⟩
    intro τ _ other
    obtain ⟨fresh, loadsToo⟩ := exists_load room (start table other)
    refine ⟨fresh, loadsToo, fun accepting acceptingToo => ?_⟩
    have one : (start table ()).load rom = .ok loaded.silent := framed ▸ load_silent loads
    have other : (start table ()).load rom = .ok fresh.silent := load_silent loadsToo
    have same : loaded.silent = fresh.silent := Except.ok.inj (one.symm.trans other)
    refine indistinguishable_of_silent same ?_ ?_
    · rw [kept]
      exact accepting
    · rw [out_of_load loadsToo]
      exact acceptingToo

/-- A machine that has printed, halted and refused a program, and then takes a shorter one, against
a fresh machine over another kind of sink. -/
theorem forgets_after_halt :
    ∃ loaded fresh,
      ((start Table.standard Transcript.empty).after
        [.load [0x19, 0x10, 0, 0, 0, 0, 0, 0], .step, .step, .step,
          .load (List.replicate 3585 0)]).load [0x19, 0x10, 0, 0] = .ok loaded ∧
      (start Table.standard Buffer.empty).load [0x19, 0x10, 0, 0] = .ok fresh ∧
      loaded.Indistinguishable fresh := by
  have accepting : Sink.Accepting Transcript.empty := Sink.takes_transcript.accepting rfl
  obtain ⟨loaded, loads, -, -, others⟩ := (forgets_after Table.standard Transcript.empty
    [.load [0x19, 0x10, 0, 0, 0, 0, 0, 0], .step, .step, .step, .load (List.replicate 3585 0)]
    [0x19, 0x10, 0, 0]).loaded (by decide)
  obtain ⟨fresh, loadsToo, same⟩ := others Buffer Buffer.empty
  exact ⟨loaded, fresh, loads, loadsToo,
    same (accepting_after accepting _) (Sink.takes_buffer.accepting trivial)⟩

end Machine

end Tetrad
