import Tetrad.Pattern.Report
import Tetrad.Proofs.Failure

/-!
# Searching for patterns

Patterns occur at an index of a list of instructions when a run that starts there fits them one by
one (`Pattern.OccursAt`). The search finds the least such index, and what the two checks refuse is
refused for a reason that its report begins with (`Pattern.Judged`).
-/

namespace Tetrad

/-- How the report on a failure begins: with what is missing, both counts or the index. -/
def PatternFailure.opening : PatternFailure → String
  | missing => "Pattern not found in instruction sequence.\n\n"
  | count expected found =>
    "Instruction count mismatch: expected " ++ Numeral.decimal expected ++ ", got "
      ++ Numeral.decimal found ++ ".\n\n"
  | mismatch index _ _ =>
    "Instruction mismatch at index " ++ Numeral.decimal index ++ ":\nExpected: "

theorem PatternFailure.exists_message_eq (patterns : List Pattern)
    (instructions : List Instruction) (failure : PatternFailure) :
    ∃ rest, failure.message patterns instructions = failure.opening ++ rest := by
  -- A text that begins so still does with more behind it.
  have longer {start text : String} (more : String) (begins : ∃ rest, text = start ++ rest) :
      ∃ rest, text ++ more = start ++ rest := by
    obtain ⟨rest, rfl⟩ := begins
    exact ⟨rest ++ more, String.append_assoc⟩
  cases failure with
  | missing | count expected found => exact ⟨_, rfl⟩
  | mismatch index pattern instruction =>
    exact longer _ (longer _ (longer _ (longer _ ⟨_, rfl⟩)))

namespace Pattern

variable {pattern : Pattern} {instruction : Instruction} {patterns : List Pattern}
  {instructions rest : List Instruction} {index : Nat} {failure : PatternFailure}

/-- As many instructions as patterns, each of which fits its pattern. -/
def FitAll (patterns : List Pattern) (run : List Instruction) : Prop :=
  List.Forall₂ (fun pattern instruction => pattern.fits instruction = true) patterns run

/-- A run of instructions that starts at the index fits the patterns. -/
def OccursAt (patterns : List Pattern) (instructions : List Instruction) (index : Nat) : Prop :=
  ∃ before run after, instructions = before ++ run ++ after ∧ before.length = index ∧
    FitAll patterns run

theorem startsWith_eq_true_iff : startsWith patterns instructions = true ↔
    ∃ run after, instructions = run ++ after ∧ FitAll patterns run := by
  induction patterns generalizing instructions with
  | nil => exact iff_of_true rfl ⟨[], instructions, rfl, .nil⟩
  | cons pattern patterns ih =>
    cases instructions with
    | nil =>
      refine iff_of_false Bool.false_ne_true ?_
      rintro ⟨run, after, none, fit⟩
      obtain ⟨rfl, -⟩ := List.nil_eq_append_iff.mp none
      cases fit
    | cons instruction rest =>
      rw [startsWith, Bool.and_eq_true, ih]
      constructor
      · rintro ⟨first, run, after, rfl, fit⟩
        exact ⟨instruction :: run, after, rfl, .cons first fit⟩
      · rintro ⟨run, after, split, fit⟩
        obtain ⟨own, others, first, later, rfl⟩ := List.forall₂_cons_left_iff.mp fit
        obtain ⟨rfl, rfl⟩ := List.cons_eq_cons.mp split
        exact ⟨first, others, after, rfl, later⟩

theorem occursAt_zero_iff :
    OccursAt patterns instructions 0 ↔ startsWith patterns instructions = true := by
  rw [startsWith_eq_true_iff]
  constructor
  · rintro ⟨before, run, after, rfl, none, fit⟩
    obtain rfl := List.length_eq_zero_iff.mp none
    exact ⟨run, after, rfl, fit⟩
  · rintro ⟨run, after, rfl, fit⟩
    exact ⟨[], run, after, rfl, rfl, fit⟩

theorem occursAt_cons_succ_iff :
    OccursAt patterns (instruction :: rest) (index + 1) ↔ OccursAt patterns rest index := by
  constructor
  · rintro ⟨before, run, after, split, count, fit⟩
    obtain ⟨first, before, rfl⟩ := List.exists_cons_of_length_eq_add_one count
    obtain ⟨rfl, rfl⟩ := List.cons_eq_cons.mp split
    exact ⟨before, run, after, rfl, Nat.succ.inj count, fit⟩
  · rintro ⟨before, run, after, rfl, rfl, fit⟩
    exact ⟨instruction :: before, run, after, rfl, rfl, fit⟩

/-- Where patterns occur, at least as many instructions are left as there are patterns. -/
theorem OccursAt.length_le (occurs : OccursAt patterns instructions index) :
    index + patterns.length ≤ instructions.length := by
  obtain ⟨before, run, after, rfl, rfl, fit⟩ := occurs
  rw [List.length_append, List.length_append, fit.length_eq]
  exact Nat.le_add_right _ _

/-- The patterns occur at the index, and nowhere before it. -/
def OccursFirstAt (patterns : List Pattern) (instructions : List Instruction) (index : Nat) :
    Prop :=
  OccursAt patterns instructions index ∧
    ∀ earlier < index, ¬ OccursAt patterns instructions earlier

/-- Where patterns occur at once, no other index is the least. -/
theorem occursFirstAt_iff_of_startsWith (here : startsWith patterns instructions = true) :
    OccursFirstAt patterns instructions index ↔ 0 = index := by
  have occurs := occursAt_zero_iff.mpr here
  constructor
  · rintro ⟨-, least⟩
    exact (Nat.eq_zero_of_not_pos fun later => least 0 later occurs).symm
  · rintro rfl
    exact ⟨occurs, nofun⟩

/-- Where patterns do not occur at once, they occur one index later than without the first
instruction. -/
theorem occursFirstAt_cons_iff (other : ¬ startsWith patterns (instruction :: rest) = true) :
    OccursFirstAt patterns (instruction :: rest) index ↔
      ∃ later, OccursFirstAt patterns rest later ∧ later + 1 = index := by
  rw [← occursAt_zero_iff] at other
  constructor
  · rintro ⟨occurs, least⟩
    cases index with
    | zero => exact absurd occurs other
    | succ later =>
      refine ⟨later, ⟨occursAt_cons_succ_iff.mp occurs, ?_⟩, rfl⟩
      intro earlier below sooner
      exact least (earlier + 1) (Nat.succ_lt_succ below) (occursAt_cons_succ_iff.mpr sooner)
  · rintro ⟨later, ⟨occurs, least⟩, rfl⟩
    refine ⟨occursAt_cons_succ_iff.mpr occurs, ?_⟩
    intro earlier below sooner
    cases earlier with
    | zero => exact other sooner
    | succ earlier =>
      exact least earlier (Nat.lt_of_succ_lt_succ below) (occursAt_cons_succ_iff.mp sooner)

theorem find?_eq_some_iff :
    find? patterns instructions = some index ↔ OccursFirstAt patterns instructions index := by
  induction instructions generalizing index with
  | nil =>
    rw [find?]
    by_cases here : startsWith patterns [] = true
    · rw [if_pos here, Option.some_inj, occursFirstAt_iff_of_startsWith here]
    · rw [if_neg here]
      refine iff_of_false nofun ?_
      rintro ⟨occurs, -⟩
      obtain rfl : index = 0 := Nat.eq_zero_of_add_eq_zero_right (Nat.le_zero.mp occurs.length_le)
      exact here (occursAt_zero_iff.mp occurs)
  | cons instruction rest ih =>
    rw [find?]
    by_cases here : startsWith patterns (instruction :: rest) = true
    · rw [if_pos here, Option.some_inj, occursFirstAt_iff_of_startsWith here]
    · rw [if_neg here, Option.map_eq_some_iff, occursFirstAt_cons_iff here]
      simp only [ih]

/-- Patterns that occur at all occur at a least index. -/
theorem exists_occursFirstAt (occurs : OccursAt patterns instructions index) :
    ∃ first, OccursFirstAt patterns instructions first := by
  induction index using Nat.strongRecOn with
  | ind index ih =>
    by_cases sooner : ∃ earlier < index, OccursAt patterns instructions earlier
    · obtain ⟨earlier, below, occurs⟩ := sooner
      exact ih earlier below occurs
    · exact ⟨index, occurs, fun earlier below other => sooner ⟨earlier, below, other⟩⟩

theorem find?_eq_none_iff :
    find? patterns instructions = none ↔ ∀ index, ¬ OccursAt patterns instructions index := by
  constructor
  · intro none index occurs
    obtain ⟨first, least⟩ := exists_occursFirstAt occurs
    rw [find?_eq_some_iff.mpr least] at none
    cases none
  · intro nowhere
    refine Option.eq_none_iff_forall_ne_some.mpr fun index found => ?_
    exact nowhere index (find?_eq_some_iff.mp found).1

/-- Why a check of instructions against patterns fails. -/
inductive Refused (patterns : List Pattern) (instructions : List Instruction) :
    PatternFailure → Prop
  | count (differs : instructions.length ≠ patterns.length) :
    Refused patterns instructions (.count patterns.length instructions.length)
  | mismatch {index : Nat} {pattern : Pattern} {instruction : Instruction}
      (same : instructions.length = patterns.length) (asked : patterns[index]? = some pattern)
      (given : instructions[index]? = some instruction) (unfit : pattern.fits instruction = false)
      (least : ∀ earlier < index, ∀ pattern instruction, patterns[earlier]? = some pattern →
        instructions[earlier]? = some instruction → pattern.fits instruction = true) :
    Refused patterns instructions (.mismatch index pattern instruction)

theorem mismatch?_eq_none_iff (same : instructions.length = patterns.length) :
    mismatch? patterns instructions = none ↔ FitAll patterns instructions := by
  have search := @find?_zipIdx_eq_none_iff _ (patterns.zip instructions)
    fun pair => !pair.1.fits pair.2
  rw [mismatch?, Option.map_eq_none_iff, FitAll, List.forall₂_iff_zip]
  refine search.trans ?_
  simp [same]

theorem mismatch?_eq_some_iff (same : instructions.length = patterns.length) :
    mismatch? patterns instructions = some failure ↔
      Refused patterns instructions failure := by
  have search (pair : Pattern × Instruction) (index : Nat) :=
    @find?_zipIdx_eq_some_iff _ (patterns.zip instructions) (fun pair => !pair.1.fits pair.2) pair
      index
  rw [mismatch?, Option.map_eq_some_iff]
  constructor
  · rintro ⟨⟨⟨pattern, instruction⟩, index⟩, found, rfl⟩
    obtain ⟨listed, unfit, earlier⟩ := (search _ _).mp found
    obtain ⟨asked, given⟩ := List.getElem?_zip_eq_some.mp listed
    refine .mismatch same asked given (by simpa using unfit) ?_
    intro place below other own first second
    simpa using earlier place below (other, own) (List.getElem?_zip_eq_some.mpr ⟨first, second⟩)
  · rintro (differs | ⟨-, asked, given, unfit, least⟩)
    · exact absurd same differs
    · refine ⟨_, (search (_, _) _).mpr ⟨List.getElem?_zip_eq_some.mpr ⟨asked, given⟩, ?_, ?_⟩, rfl⟩
      · simp [unfit]
      · intro place below pair listed
        obtain ⟨first, second⟩ := List.getElem?_zip_eq_some.mp listed
        simp [least place below _ _ first second]

theorem checkAll_eq_ok_iff :
    checkAll patterns instructions = .ok () ↔ FitAll patterns instructions := by
  rw [checkAll]
  by_cases same : instructions.length = patterns.length
  · rw [if_neg (not_not.mpr same), ← mismatch?_eq_none_iff same]
    cases mismatch? patterns instructions <;> simp
  · rw [if_pos same]
    exact iff_of_false nofun fun fit => same fit.length_eq.symm

theorem checkAll_eq_error_iff : checkAll patterns instructions = .error failure ↔
    Refused patterns instructions failure := by
  rw [checkAll]
  by_cases same : instructions.length = patterns.length
  · rw [if_neg (not_not.mpr same), ← mismatch?_eq_some_iff same]
    cases mismatch? patterns instructions <;> simp
  · rw [if_pos same, Except.error.injEq]
    constructor
    · rintro rfl
      exact .count same
    · rintro (differs | ⟨equal, -, -, -, -⟩)
      · rfl
      · exact absurd equal same

theorem checkOccurs_eq_error_iff : checkOccurs patterns instructions = .error failure ↔
    find? patterns instructions = none ∧ failure = .missing := by
  rw [checkOccurs]
  cases find? patterns instructions with
  | none => simp [eq_comm]
  | some index => simp

/-- What the search and the checks tell of instructions and patterns. The search finds the least
index at which the patterns occur, if there is one. The first check fails just if it finds none; the
second one passes just the instructions that fit one by one, and otherwise tells that there are too
many or too few, or which is the first that does not fit. -/
structure Judged (patterns : List Pattern) (instructions : List Instruction) : Prop where
  found : ∀ index, find? patterns instructions = some index ↔
    OccursAt patterns instructions index ∧
      ∀ earlier < index, ¬ OccursAt patterns instructions earlier
  absent : find? patterns instructions = none ↔ ∀ index, ¬ OccursAt patterns instructions index
  empty : patterns = [] → find? patterns instructions = some 0
  long : instructions.length < patterns.length → find? patterns instructions = none
  occurs : ∀ failure, checkOccurs patterns instructions = .error failure ↔
    find? patterns instructions = none ∧ failure = .missing
  passed : checkAll patterns instructions = .ok () ↔ FitAll patterns instructions
  refused : ∀ failure, checkAll patterns instructions = .error failure ↔
    Refused patterns instructions failure
  worded : ∀ failure : PatternFailure, ∃ rest,
    failure.message patterns instructions = failure.opening ++ rest

theorem judged (patterns : List Pattern) (instructions : List Instruction) :
    Judged patterns instructions := by
  refine ⟨fun index => find?_eq_some_iff, find?_eq_none_iff, ?_, ?_,
    fun failure => checkOccurs_eq_error_iff, checkAll_eq_ok_iff,
    fun failure => checkAll_eq_error_iff, PatternFailure.exists_message_eq patterns instructions⟩
  · rintro rfl
    exact find?_eq_some_iff.mpr ((occursFirstAt_iff_of_startsWith rfl).mpr rfl)
  · intro long
    refine find?_eq_none_iff.mpr fun index occurs => ?_
    exact Nat.not_le_of_lt long (Nat.le_trans (Nat.le_add_left _ _) occurs.length_le)

end Pattern

end Tetrad
