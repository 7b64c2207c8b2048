import Tetrad.Proofs.Program.Encoding

namespace Tetrad

structure InstructionLine.Alike (line other : InstructionLine) : Prop where
  form : other.form = line.form
  operands : other.operands = line.operands

inductive Statement.Alike : Statement → Statement → Prop
  | declaration {label other : Declaration} (name : other.name = label.name) :
    Alike (.declaration label) (.declaration other)
  | instruction {line other : InstructionLine} (alike : line.Alike other) :
    Alike (.instruction line) (.instruction other)

/-- A result with the place of its error left out. -/
def withoutPlace {α : Type} (result : Except AssemblyError α) : Except AssemblyCause α :=
  result.mapError AssemblyError.cause

section Places

variable {α : Type} {result other : Except AssemblyError α} {value : α}

theorem eq_ok_of_withoutPlace (same : withoutPlace result = withoutPlace other)
    (ok : result = .ok value) : other = .ok value := by
  subst ok
  cases other with
  | ok own =>
    cases same
    rfl
  | error error => cases same

theorem exists_error_of_withoutPlace (same : withoutPlace result = withoutPlace other)
    {error : AssemblyError} (failed : result = .error error) :
    ∃ twin, other = .error twin ∧ twin.cause = error.cause := by
  subst failed
  cases other with
  | ok own => cases same
  | error twin =>
    refine ⟨twin, rfl, ?_⟩
    injection same with cause
    exact cause.symm

/-- Two checks that find the same cause find nothing or an error each. -/
theorem none_or_some_of_causes {found twin : Option AssemblyError}
    (same : found.map AssemblyError.cause = twin.map AssemblyError.cause) :
    found = none ∧ twin = none ∨
      ∃ error copy, found = some error ∧ twin = some copy ∧ copy.cause = error.cause := by
  cases found with
  | none => exact .inl ⟨rfl, Option.map_eq_none_iff.mp same.symm⟩
  | some error =>
    obtain ⟨copy, rfl, cause⟩ := Option.map_eq_some_iff.mp same.symm
    exact .inr ⟨error, copy, rfl, rfl, cause⟩

end Places

variable {line other : InstructionLine} {labels : Labels} {statements copies : List Statement}

theorem Statement.instructions_alike (alike : List.Forall₂ Statement.Alike statements copies) :
    List.Forall₂ InstructionLine.Alike (statements.filterMap instruction?)
      (copies.filterMap instruction?) := by
  induction alike with
  | nil => exact .nil
  | cons first _ ih =>
    cases first with
    | declaration name => exact ih
    | instruction alike => exact .cons alike ih

theorem arguments_alike {lines others : List InstructionLine}
    (alike : List.Forall₂ InstructionLine.Alike lines others) :
    (others.flatMap InstructionLine.arguments).map Argument.operand =
      (lines.flatMap InstructionLine.arguments).map Argument.operand := by
  induction alike with
  | nil => rfl
  | @cons line other lines others first _ ih =>
    have same : other.arguments.map Argument.operand = line.arguments.map Argument.operand :=
      first.operands
    rw [List.flatMap_cons, List.flatMap_cons, List.map_append, List.map_append, same, ih]

namespace Labels

theorem place_alike (alike : List.Forall₂ Statement.Alike statements copies) (address : Nat)
    (known : List (String × UInt16)) :
    withoutPlace (place address known statements) = withoutPlace (place address known copies) := by
  induction alike generalizing address known with
  | nil => rfl
  | cons first _ ih =>
    cases first with
    | @declaration label twin name =>
      rw [place, place, name]
      -- Where either is refused, the two errors differ in their places only.
      split
      · rfl
      · split
        · rfl
        · exact ih _ _
    | @instruction line twin alike =>
      have bits : twin.layoutBits = line.layoutBits := by
        rw [InstructionLine.layoutBits, InstructionLine.modes, alike.operands]
        rfl
      rw [place, place, bits, alike.form]
      split
      · rfl
      · split
        · rfl
        · exact ih _ _

theorem undefined?_alike (labels : Labels) {arguments others : List Argument}
    (same : others.map Argument.operand = arguments.map Argument.operand) :
    (labels.undefined? arguments).map AssemblyError.cause =
      (labels.undefined? others).map AssemblyError.cause := by
  have causes : ∀ arguments : List Argument,
      (labels.undefined? arguments).map AssemblyError.cause =
        (arguments.map Argument.operand).findSome? fun operand => operand.label?.bind fun name =>
          if (labels.address? name).isSome then none else some (.undefinedLabel name) := by
    intro arguments
    rw [undefined?, List.map_findSome?, List.findSome?_map]
    congr 1
    funext argument
    simp only [Function.comp_apply]
    cases argument.operand.label? with
    | none => rfl
    | some name =>
      dsimp only [Option.bind_some]
      split <;> rfl
  rw [causes, causes, same]

theorem build_alike (alike : List.Forall₂ Statement.Alike statements copies) (base : UInt16) :
    withoutPlace (build statements base) = withoutPlace (build copies base) := by
  have placed := place_alike alike base.toNat []
  have referred (places : List (String × UInt16)) :=
    undefined?_alike ⟨base, places⟩ (arguments_alike (Statement.instructions_alike alike))
  unfold build
  cases first : place base.toNat [] statements with
  | error error =>
    obtain ⟨twin, second, cause⟩ := exists_error_of_withoutPlace placed first
    rw [second]
    exact congrArg Except.error cause.symm
  | ok places =>
    rw [eq_ok_of_withoutPlace placed first]
    dsimp only [bind, Except.bind]
    rcases none_or_some_of_causes (referred places) with ⟨own, twin⟩ | ⟨_, _, own, twin, cause⟩
    · rw [own, twin]
    · rw [own, twin]
      exact congrArg Except.error cause.symm

end Labels

theorem InstructionLine.encode_alike (alike : line.Alike other) {word : UInt32} :
    line.encode labels = .ok word ↔ other.encode labels = .ok word := by
  simp only [encode_eq_ok_iff, relocate_eq_ok_iff, alike.form, alike.operands]

theorem Program.bytes_alike (alike : List.Forall₂ Statement.Alike statements copies)
    {rom : List UInt8} (whole : (Program.mk statements labels).bytes = .ok rom) :
    (Program.mk copies labels).bytes = .ok rom := by
  obtain ⟨words, encoded, joined⟩ := bytes_eq_ok_iff.mp whole
  refine bytes_eq_ok_iff.mpr ⟨words, ?_, joined⟩
  refine forall₂_through (Statement.instructions_alike alike).flip encoded ?_
  intro other line word same own
  exact (InstructionLine.encode_alike same).mp own

end Tetrad
