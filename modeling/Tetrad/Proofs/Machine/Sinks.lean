import Tetrad.Proofs.Machine.Stepping

namespace Tetrad

/-- The machine with another step count and another sink. -/
def Machine.recount {σ : Type} (machine : Machine σ) (steps : Nat) (out : σ) : Machine σ :=
  { machine with steps := steps, out := out }

namespace Sink

variable {σ : Type} [Sink σ] {property : σ → Prop} {machine : Machine σ}

/-- A property of a sink that no write takes from it. -/
def Keeps (property : σ → Prop) : Prop :=
  ∀ (out : σ) (text : String), property out → property (Sink.write out text).1

theorem Keeps.writeAll (keeps : Keeps property) {out : σ} (holds : property out)
    (texts : List String) : property (Sink.writeAll out texts).1 := by
  induction texts generalizing out with
  | nil => exact holds
  | cons text rest ih =>
    have kept := keeps out text holds
    rw [Sink.writeAll]
    split
    · next written =>
      rw [written] at kept
      exact kept
    · next written =>
      rw [written] at kept
      exact ih kept

theorem Keeps.perform (keeps : Keeps property) (holds : property machine.out) (effect : Effect) :
    property (machine.perform effect).1.out := by
  cases effect with
  | print value =>
    have kept := keeps.writeAll holds (printed value)
    rw [Machine.perform_print]
    split
    · next written =>
      rw [written] at kept
      exact kept
    · next written =>
      rw [written] at kept
      exact kept
  | _ => exact holds

theorem Keeps.step (keeps : Keeps property) (holds : property machine.out) :
    property machine.step.1.out := by
  rcases machine.step_cases with ⟨-, step⟩ | ⟨-, fault, -, step⟩ | ⟨-, -, step⟩ |
    ⟨instruction, fault, -, -, step⟩ | ⟨instruction, effect, -, -, step⟩
  · rw [step]
    exact holds
  · rw [step]
    exact holds
  · rw [step]
    exact holds
  · rw [step]
    exact holds
  · rw [step]
    have counted : property machine.counted.out := holds
    exact keeps.perform counted effect

theorem Keeps.stepped (keeps : Keeps property) (holds : property machine.out) (count : Nat) :
    property (machine.stepped count).out := by
  induction count with
  | zero => exact holds
  | succ count ih =>
    rw [Machine.stepped_succ_apply]
    exact keeps.step ih

/-- No text is refused where the property holds, and then the property still holds. -/
structure Takes (property : σ → Prop) : Prop where
  keeps : Keeps property
  accepts : ∀ (out : σ) (text : String), property out → (Sink.write out text).2 = none

theorem takes_buffer : Takes fun _ : Buffer => True where
  keeps := fun _ _ _ => trivial
  accepts := fun _ _ _ => rfl

theorem takes_transcript : Takes fun out : Transcript => out.lineLimit = none := by
  have write : ∀ (out : Transcript) (text : String), out.lineLimit = none →
      Sink.write out text = ({ out with text := out.text ++ text }, none) := by
    intro out text unlimited
    have room : ¬ out.isFull = true := by simp [Transcript.isFull, unlimited]
    exact if_neg room
  refine ⟨?_, ?_⟩
  · intro out text unlimited
    rw [write out text unlimited]
    exact unlimited
  · intro out text unlimited
    rw [write out text unlimited]

theorem Takes.writeAll (takes : Takes property) {out : σ} (holds : property out)
    (texts : List String) : (Sink.writeAll out texts).2 = none := by
  induction texts generalizing out with
  | nil => rfl
  | cons text rest ih =>
    have kept := takes.keeps out text holds
    have accepted := takes.accepts out text holds
    rw [Sink.writeAll]
    split
    · next written =>
      rw [written] at accepted
      cases accepted
    · next written =>
      rw [written] at kept
      exact ih kept

theorem Takes.perform_print (takes : Takes property) (holds : property machine.out)
    (value : UInt8) : machine.perform (.print value) =
      ({ machine with out := (Sink.writeAll machine.out (printed value)).1 }.advance,
        .ok .running) := by
  have accepted := takes.writeAll holds (printed value)
  rw [Machine.perform_print]
  cases written : Sink.writeAll machine.out (printed value) with
  | mk out refused =>
    rw [written] at accepted
    cases accepted
    rfl

/-- An effect comes to the same for a machine that has counted and printed something else. -/
theorem Takes.perform_recount (takes : Takes property) (holds : property machine.out)
    (effect : Effect) (steps : Nat) {out : σ} (holdsToo : property out) :
    ∃ after, (machine.recount steps out).perform effect =
      ((machine.perform effect).1.recount steps after, (machine.perform effect).2) := by
  cases effect with
  | print value =>
    have other : property (machine.recount steps out).out := holdsToo
    rw [takes.perform_print holds, takes.perform_print other]
    exact ⟨_, rfl⟩
  | _ => exact ⟨out, rfl⟩

/-- So does a step, as neither the instruction that is found nor its plan depends on them. -/
theorem Takes.step_recount (takes : Takes property) (holds : property machine.out) (steps : Nat)
    {out : σ} (holdsToo : property out) :
    ∃ counted after, (machine.recount steps out).step =
      (machine.step.1.recount counted after, machine.step.2) := by
  cases activity : machine.activity with
  | halted =>
    have other : (machine.recount steps out).activity = .halted := activity
    rw [Machine.step_of_halted activity, Machine.step_of_halted other]
    exact ⟨steps, out, rfl⟩
  | running =>
    have step := Machine.step_of_current activity
    have other : (machine.recount steps out).activity = .running := activity
    have stepToo := Machine.step_of_current other
    have same : (machine.recount steps out).current = machine.current := rfl
    rw [same] at stepToo
    cases found : machine.current with
    | error fault =>
      rw [found] at step stepToo
      rw [step, stepToo]
      exact ⟨steps, out, rfl⟩
    | ok one =>
      rw [found] at step stepToo
      rw [step, stepToo]
      cases one with
      | none => exact ⟨steps, out, rfl⟩
      | some instruction =>
        have plan : (machine.recount steps out).plan instruction = machine.plan instruction := rfl
        dsimp only
        rw [Machine.execute_eq, Machine.execute_eq, plan]
        cases machine.plan instruction with
        | error fault => exact ⟨steps + 1, out, rfl⟩
        | ok effect =>
          have counted : property machine.counted.out := holds
          obtain ⟨after, performed⟩ := takes.perform_recount counted effect (steps + 1) holdsToo
          exact ⟨steps + 1, after, performed⟩

end Sink

end Tetrad
