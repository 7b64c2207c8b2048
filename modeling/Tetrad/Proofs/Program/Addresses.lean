import Tetrad.Proofs.Program.Relocation

namespace Tetrad

/-- The number of instructions among statements. -/
def Statement.count (statements : List Statement) : Nat :=
  (statements.filterMap Statement.instruction?).length

theorem Statement.count_instruction (line : InstructionLine) (rest : List Statement) :
    count (.instruction line :: rest) = count rest + 1 := rfl

theorem Statement.count_append (first second : List Statement) :
    count (first ++ second) = count first + count second := by
  rw [count, List.filterMap_append, List.length_append]
  rfl

namespace Labels

variable {address : Nat} {known places : List (String × UInt16)} {label : Declaration}
  {statements before after : List Statement}

theorem lookup_of_place_known {name : String} {own : UInt16} (found : known.lookup name = some own)
    (placed : place address known statements = .ok places) : places.lookup name = some own := by
  induction statements generalizing address known with
  | nil =>
    cases placed
    exact found
  | cons statement rest ih =>
    cases statement with
    | instruction line =>
      obtain ⟨-, -, later⟩ := place_instruction_eq_ok_iff.mp placed
      exact ih found later
    | declaration label =>
      obtain ⟨-, fresh, later⟩ := place_declaration_eq_ok_iff.mp placed
      refine ih ?_ later
      have other : name ≠ label.name := by
        rintro rfl
        rw [fresh] at found
        cases found
      rw [List.lookup_cons, beq_false_of_ne other]
      exact found

/-- A declared label has the address at which its declaration stands, inside the address space. -/
theorem lookup_of_place
    (placed : place address known (before ++ .declaration label :: after) = .ok places) :
    address + 4 * Statement.count before < addressSpace ∧
      places.lookup label.name = some (UInt16.ofNat (address + 4 * Statement.count before)) := by
  induction before generalizing address known with
  | nil =>
    obtain ⟨inside, -, later⟩ := place_declaration_eq_ok_iff.mp placed
    exact ⟨inside, lookup_of_place_known List.lookup_cons_self later⟩
  | cons statement rest ih =>
    cases statement with
    | declaration other =>
      obtain ⟨-, -, later⟩ := place_declaration_eq_ok_iff.mp placed
      exact ih later
    | instruction line =>
      obtain ⟨-, -, later⟩ := place_instruction_eq_ok_iff.mp placed
      rw [Statement.count_instruction, Nat.mul_succ, Nat.add_comm _ 4, ← Nat.add_assoc]
      exact ih later

/-- A label of a program lies behind the base by four bytes for each instruction above it. -/
theorem address?_of_build {base : UInt16} {labels : Labels}
    (built : build (before ++ .declaration label :: after) base = .ok labels) :
    ∃ address, labels.address? label.name = some address ∧
      address.toNat = base.toNat + 4 * Statement.count before := by
  obtain ⟨places, placed, built⟩ := bind_eq_ok_iff.mp built
  obtain ⟨inside, found⟩ := lookup_of_place placed
  dsimp only at built
  split at built
  · cases built
  · cases built
    exact ⟨_, found, UInt16.toNat_ofNat_of_lt' inside⟩

end Labels

/-- The first line below a label has the place that the label counts. -/
theorem Program.instructions_getElem?_count {program : Program} {before after : List Statement}
    {label : Declaration} (declared : program.statements = before ++ .declaration label :: after) :
    program.instructions[Statement.count before]? =
      (after.filterMap Statement.instruction?).head? := by
  rw [instructions, declared, List.filterMap_append, Statement.count,
    List.getElem?_append_right (Nat.le_refl _), Nat.sub_self, List.head?_eq_getElem?]
  rfl

end Tetrad
