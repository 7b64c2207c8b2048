import Mathlib.Logic.Function.Iterate
import Tetrad.Proofs.Machine.Stepping

/-!
# Steps that fail

A step that fails changes nothing but the step count, and the output if it fails while printing
(`step_eq_error`). A machine that cannot plan its step is stuck: it fails for the same reason
however often it is stepped (`Machine.Stuck`).
-/

namespace Tetrad

/-- A view of a sink as the characters that it holds: a write adds a first part of its text, and the
whole text unless it is refused. -/
def Sink.Appends {σ : Type} [Sink σ] (held : σ → List Char) : Prop :=
  ∀ (out : σ) (text : String), ∃ part, part <+: text.toList ∧
    held (Sink.write out text).1 = held out ++ part ∧
    ((Sink.write out text).2 = none → part = text.toList)

theorem Sink.Appends.writeAll {σ : Type} [Sink σ] {held : σ → List Char}
    (appends : Sink.Appends held) (out : σ) (texts : List String) :
    ∃ part, part <+: texts.flatMap String.toList ∧
      held (Sink.writeAll out texts).1 = held out ++ part := by
  induction texts generalizing out with
  | nil => exact ⟨[], List.nil_prefix, (List.append_nil _).symm⟩
  | cons text rest ih =>
    obtain ⟨part, starts, added, whole⟩ := appends out text
    rw [Sink.writeAll, List.flatMap_cons]
    cases written : Sink.write out text with
    | mk next refused =>
      rw [written] at added whole
      cases refused with
      | some reason => exact ⟨part, starts.trans (List.prefix_append _ _), added⟩
      | none =>
        obtain ⟨later, continues, more⟩ := ih next
        refine ⟨text.toList ++ later, List.prefix_append_right_inj _ |>.mpr continues, ?_⟩
        rw [more, added, whole rfl, List.append_assoc]

/-- A transcript is such a sink: it takes a text whole or not at all. -/
theorem Transcript.appends : Sink.Appends (σ := Transcript) fun out => out.text.toList := by
  intro out text
  show ∃ part, part <+: text.toList ∧
    (out.write text).1.text.toList = out.text.toList ++ part ∧
    ((out.write text).2 = none → part = text.toList)
  unfold Transcript.write
  by_cases full : out.isFull = true
  · rw [if_pos full]
    refine ⟨[], List.nil_prefix, (List.append_nil _).symm, ?_⟩
    intro accepted
    cases accepted
  · rw [if_neg full]
    exact ⟨text.toList, List.prefix_rfl, String.toList_append, fun _ => rfl⟩

namespace Machine

variable {σ : Type} {machine after : Machine σ} {fault : Fault}

/-- The machine runs and cannot plan its next step, for the given reason. -/
def Stuck (machine : Machine σ) (fault : Fault) : Prop :=
  machine.activity = .running ∧ (machine.current = .error fault ∨
    ∃ instruction, machine.current = .ok (some instruction) ∧
      machine.plan instruction = .error fault)

theorem Stuck.step_eq [Sink σ] (stuck : machine.Stuck fault) :
    ∃ steps, machine.step = ({ machine with steps := steps }, .error fault) := by
  obtain ⟨running, lost | ⟨instruction, found, failed⟩⟩ := stuck
  · refine ⟨machine.steps, ?_⟩
    rw [step_of_current running, lost]
  · refine ⟨machine.steps + 1, ?_⟩
    rw [step_of_current running, found]
    dsimp only
    rw [execute_eq, failed]
    rfl

theorem Stuck.recount (stuck : machine.Stuck fault) (steps : Nat) (out : σ) :
    { machine with steps := steps, out := out }.Stuck fault := by
  obtain ⟨running, lost | ⟨instruction, found, failed⟩⟩ := stuck
  · exact ⟨running, .inl lost⟩
  · rw [← plan_counted machine instruction steps out] at failed
    exact ⟨running, .inr ⟨instruction, found, failed⟩⟩

/-- A stuck machine stays stuck, however often it is stepped. -/
theorem Stuck.iterate [Sink σ] (stuck : machine.Stuck fault) (count : Nat) :
    ((fun machine : Machine σ => machine.step.1)^[count] machine).Stuck fault := by
  induction count generalizing machine with
  | zero => exact stuck
  | succ count ih =>
    obtain ⟨steps, stepped⟩ := stuck.step_eq
    rw [Function.iterate_succ_apply, stepped]
    exact ih (stuck.recount steps machine.out)

theorem Stuck.step_iterate [Sink σ] (stuck : machine.Stuck fault) (count : Nat) :
    ((fun machine : Machine σ => machine.step.1)^[count] machine).step.2 = .error fault := by
  obtain ⟨steps, stepped⟩ := (stuck.iterate count).step_eq
  rw [stepped]

/-- A step fails where no instruction is found, where it has no plan, or where its line is refused
by the sink. -/
theorem step_eq_error [Sink σ] (failed : machine.step = (after, .error fault)) :
    (fault.stage = .fetching ∧ machine.Stuck fault ∧
      (∀ instruction, ¬ machine.Executes instruction) ∧ after = machine) ∨
    (fault.stage = .planning ∧ machine.Stuck fault ∧
      (∃ instruction, machine.Executes instruction) ∧ after = machine.counted) ∨
    (∃ register reason, fault = .output reason ∧
      machine.Executes ⟨.print, [.register register]⟩ ∧
      Sink.writeAll machine.out (printed (machine.registers.get register)) =
        (after.out, some reason) ∧
      after = { machine.counted with out := after.out }) := by
  rcases step_cases machine with ⟨-, step⟩ | ⟨running, reason, lost, step⟩ | ⟨-, -, step⟩ |
    ⟨instruction, reason, executes, planless, step⟩ | ⟨instruction, effect, executes, planned, step⟩
  · rw [step] at failed
    cases failed
  · rw [step] at failed
    cases failed
    refine .inl ⟨stage_of_current lost, ⟨running, .inl lost⟩, ?_, rfl⟩
    intro instruction executes
    have found := (executes_iff.mp executes).2
    rw [lost] at found
    cases found
  · rw [step] at failed
    cases failed
  · rw [step] at failed
    cases failed
    obtain ⟨running, found⟩ := executes_iff.mp executes
    exact .inr (.inl ⟨stage_of_plan planless, ⟨running, .inr ⟨instruction, found, planless⟩⟩,
      ⟨instruction, executes⟩, rfl⟩)
  · rw [step] at failed
    obtain ⟨value, reason, rfl, rfl, written, same⟩ := perform_eq_error failed
    cases plan_eq_ok_iff.mp planned with
    | print => exact .inr (.inr ⟨_, reason, rfl, executes, written, same⟩)

/-- A failed step leaves the machine as it was but for its step count and its output. It counts if
an instruction was found. It prints if the sink refuses the line of a print, and then just what the
sink accepted of this line; every other fault comes back at each further step. -/
structure Kept [Sink σ] (machine after : Machine σ) (fault : Fault) : Prop where
  state : after = { machine with steps := after.steps, out := after.out }
  steps : after.steps = if fault.stage = .fetching then machine.steps else machine.steps + 1
  found : fault.stage = .fetching ↔ ∀ instruction, ¬ machine.Executes instruction
  again : (∀ reason, fault ≠ .output reason) → after.out = machine.out ∧ ∀ count,
    ((fun machine : Machine σ => machine.step.1)^[count] after).step.2 = .error fault
  refused : ∀ reason, fault = .output reason → ∃ register,
    machine.Executes ⟨.print, [.register register]⟩ ∧
    Sink.writeAll machine.out (printed (machine.registers.get register)) =
      (after.out, some reason) ∧
    ∀ held : σ → List Char, Sink.Appends held → ∃ part,
      part <+: (printed (machine.registers.get register)).flatMap String.toList ∧
      held after.out = held machine.out ++ part

theorem kept_of_step_error [Sink σ] (machine after : Machine σ) (fault : Fault)
    (failed : machine.step = (after, .error fault)) : machine.Kept after fault := by
  rcases step_eq_error failed with ⟨fetching, stuck, idle, rfl⟩ |
    ⟨planning, stuck, ⟨instruction, executes⟩, rfl⟩ |
    ⟨register, reason, rfl, executes, written, same⟩
  · refine ⟨rfl, ?_, ⟨fun _ => idle, fun _ => fetching⟩, fun _ => ⟨rfl, stuck.step_iterate⟩, ?_⟩
    · rw [if_pos fetching]
    · rintro reason rfl
      cases fetching
  · have found : fault.stage ≠ .fetching := by
      rw [planning]
      decide
    have stuck := stuck.recount (machine.steps + 1) machine.out
    refine ⟨rfl, ?_, ?_, fun _ => ⟨rfl, stuck.step_iterate⟩, ?_⟩
    · rw [if_neg found]
      rfl
    · exact ⟨fun fetching => absurd fetching found, fun idle => absurd executes (idle _)⟩
    · rintro reason rfl
      cases planning
  · refine ⟨?_, ?_, ?_, fun other => absurd rfl (other reason), ?_⟩
    · rw [same]
      rfl
    · rw [same]
      rfl
    · exact ⟨(nomatch ·), fun idle => absurd executes (idle _)⟩
    · intro other same
      cases same
      refine ⟨register, executes, written, fun held appends => ?_⟩
      obtain ⟨part, starts, added⟩ :=
        appends.writeAll machine.out (printed (machine.registers.get register))
      rw [written] at added
      exact ⟨part, starts, added⟩

/-- A machine that prints register 0 to a transcript without room for a line. -/
def printsToFull : Machine Transcript :=
  { start Table.standard ⟨"", some 0⟩ with
    memory := Memory.blank.set ⟨0x200, by decide⟩ 0x19
    romEnd := 0x204 }

set_option maxRecDepth 4000 in
theorem kept_of_step_error_full_sink :
    printsToFull.step = ({ printsToFull with steps := 1 }, .error (.output "sink full")) ∧
      printsToFull.Kept { printsToFull with steps := 1 } (.output "sink full") ∧
      ∃ register part,
        part <+: (printed (printsToFull.registers.get register)).flatMap String.toList ∧
        printsToFull.out.text.toList = printsToFull.out.text.toList ++ part := by
  have kept := kept_of_step_error printsToFull { printsToFull with steps := 1 } _ rfl
  obtain ⟨register, -, -, accepted⟩ := kept.refused _ rfl
  exact ⟨rfl, kept, register, accepted _ Transcript.appends⟩

end Machine

end Tetrad
