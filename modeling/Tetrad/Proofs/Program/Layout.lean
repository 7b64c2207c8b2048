import Mathlib.Data.List.Nodup
import Tetrad.Proofs.Program.Addresses

/-!
# The layout of a program

A label table is built for the programs that have a layout and for no others
(`Labels.build_iff_hasLayout`): no label is declared twice, every label lies inside the address
space, the last instruction ends in it, every instruction fits a word, and what is referred to is
declared. The table then holds the declared labels and nothing else, and lists them by address and
name (`Labels.Describes`).
-/

namespace Tetrad

/-- The label that a statement declares. -/
def Statement.declared? : Statement → Option String
  | declaration label => some label.name
  | instruction _ => none

/-- The labels that statements declare, in source order. -/
def Statement.names (statements : List Statement) : List String := statements.filterMap declared?

/-- What statements must satisfy to have addresses from a base on. -/
structure Statement.HasLayout (statements : List Statement) (base : UInt16) : Prop where
  distinct : (names statements).Nodup
  inside : ∀ before label after, statements = before ++ .declaration label :: after →
    base.toNat + 4 * count before < addressSpace
  room : base.toNat + 4 * count statements ≤ addressSpace
  narrow : ∀ line, .instruction line ∈ statements → line.layoutBits ≤ 32
  defined : ∀ line, .instruction line ∈ statements → ∀ operand ∈ line.operands, ∀ name,
    operand.label? = some name → name ∈ names statements

/-- A label table holds the labels of statements at their places from a base on. -/
structure Labels.Describes (labels : Labels) (statements : List Statement) (base : UInt16) :
    Prop where
  declared : ∀ before label after, statements = before ++ .declaration label :: after →
    ∃ address, labels.address? label.name = some address ∧
      address.toNat = base.toNat + 4 * Statement.count before
  undeclared : ∀ name, name ∉ Statement.names statements → labels.address? name = none
  listed : ∀ name address, (name, address) ∈ labels.entries ↔ labels.address? name = some address
  once : (labels.entries.map Prod.fst).Nodup
  ordered : labels.entries.Pairwise fun a b => a.2 < b.2 ∨ a.2 = b.2 ∧ a.1 < b.1

section Lookup

variable {β : Type} {entries : List (String × β)} {name : String} {value : β}

theorem lookup_cons_eq_none_iff {entry : String × β} :
    (entry :: entries).lookup name = none ↔ name ≠ entry.1 ∧ entries.lookup name = none := by
  simp only [List.lookup_eq_none_iff, List.forall_mem_cons, bne_iff_ne]

theorem lookup_eq_none_iff_not_mem : entries.lookup name = none ↔ name ∉ entries.map Prod.fst := by
  induction entries with
  | nil => simp
  | cons entry rest ih =>
    rw [lookup_cons_eq_none_iff, ih, List.map_cons, List.mem_cons, not_or]

/-- Without two entries of one name, an entry is what its name leads to. -/
theorem mem_iff_lookup (distinct : (entries.map Prod.fst).Nodup) :
    (name, value) ∈ entries ↔ entries.lookup name = some value := by
  induction entries with
  | nil => simp
  | cons entry rest ih =>
    obtain ⟨own, content⟩ := entry
    obtain ⟨fresh, distinct⟩ := List.nodup_cons.mp distinct
    rw [List.mem_cons]
    by_cases same : name = own
    · subst same
      have absent : (name, value) ∉ rest := fun member => fresh (List.mem_map.mpr ⟨_, member, rfl⟩)
      rw [List.lookup_cons_self]
      simp [absent, eq_comm]
    · rw [List.lookup_cons, beq_false_of_ne same, ← ih distinct]
      simp [same]

end Lookup

namespace Labels

/-- The labels of statements with the addresses at which they are declared. -/
def positions (address : Nat) : List Statement → List (String × Nat)
  | [] => []
  | .declaration label :: rest => (label.name, address) :: positions address rest
  | .instruction _ :: rest => positions (address + 4) rest

/-- What placing statements from an address on checks, some labels being known already. -/
structure Laid (address : Nat) (known : List (String × UInt16)) (statements : List Statement) :
    Prop where
  distinct : (Statement.names statements).Nodup
  fresh : ∀ name ∈ Statement.names statements, known.lookup name = none
  inside : ∀ place ∈ positions address statements, place.2 < addressSpace
  room : address + 4 * Statement.count statements ≤ addressSpace
  narrow : ∀ line, .instruction line ∈ statements → line.layoutBits ≤ 32

variable {address : Nat} {known places : List (String × UInt16)} {statements rest : List Statement}

theorem laid_declaration_iff {label : Declaration} :
    Laid address known (.declaration label :: rest) ↔ address < addressSpace ∧
      known.lookup label.name = none ∧
        Laid address ((label.name, UInt16.ofNat address) :: known) rest := by
  constructor
  · rintro ⟨distinct, fresh, inside, room, narrow⟩
    obtain ⟨own, distinct⟩ := List.nodup_cons.mp distinct
    refine ⟨inside _ List.mem_cons_self, fresh _ List.mem_cons_self, distinct, ?_, ?_, room, ?_⟩
    · intro name member
      refine lookup_cons_eq_none_iff.mpr ⟨?_, fresh name (List.mem_cons_of_mem _ member)⟩
      rintro rfl
      exact own member
    · intro place member
      exact inside place (List.mem_cons_of_mem _ member)
    · intro line member
      exact narrow line (List.mem_cons_of_mem _ member)
  · rintro ⟨here, own, distinct, fresh, inside, room, narrow⟩
    refine ⟨List.nodup_cons.mpr ⟨?_, distinct⟩, ?_, ?_, room, ?_⟩
    · intro member
      exact (lookup_cons_eq_none_iff.mp (fresh label.name member)).1 rfl
    · intro name member
      rcases List.mem_cons.mp member with rfl | member
      · exact own
      · exact (lookup_cons_eq_none_iff.mp (fresh name member)).2
    · intro place member
      rcases List.mem_cons.mp member with rfl | member
      · exact here
      · exact inside place member
    · intro line member
      rcases List.mem_cons.mp member with impossible | member
      · cases impossible
      · exact narrow line member

theorem laid_instruction_iff {line : InstructionLine} :
    Laid address known (.instruction line :: rest) ↔
      line.layoutBits ≤ 32 ∧ Laid (address + 4) known rest := by
  constructor
  · rintro ⟨distinct, fresh, inside, room, narrow⟩
    rw [Statement.count_instruction] at room
    refine ⟨narrow line List.mem_cons_self, distinct, fresh, inside, by omega, ?_⟩
    intro other member
    exact narrow other (List.mem_cons_of_mem _ member)
  · rintro ⟨own, distinct, fresh, inside, room, narrow⟩
    refine ⟨distinct, fresh, inside, ?_, ?_⟩
    · rw [Statement.count_instruction]
      omega
    · intro other member
      rcases List.mem_cons.mp member with same | member
      · cases same
        exact own
      · exact narrow other member

/-- An entry of the table for a position. -/
def entry (position : String × Nat) : String × UInt16 := (position.1, UInt16.ofNat position.2)

/-- Placing succeeds when all its checks hold, and puts the labels in front of the known ones, the
last declared first. -/
theorem place_eq_ok_iff (start : address ≤ addressSpace) :
    place address known statements = .ok places ↔ Laid address known statements ∧
      places = ((positions address statements).map entry).reverse ++ known := by
  induction statements generalizing address known with
  | nil =>
    have laid : Laid address known [] :=
      ⟨List.nodup_nil, nofun, nofun, start, nofun⟩
    simp [place, positions, laid, eq_comm]
  | cons statement rest ih =>
    cases statement with
    | declaration label =>
      rw [place_declaration_eq_ok_iff, laid_declaration_iff, ih start]
      simp [positions, entry, and_assoc]
    | instruction line =>
      rw [place_instruction_eq_ok_iff, laid_instruction_iff]
      constructor
      · rintro ⟨fits, inside, placed⟩
        obtain ⟨laid, same⟩ := (ih inside).mp placed
        exact ⟨⟨fits, laid⟩, same⟩
      · rintro ⟨⟨fits, laid⟩, same⟩
        have inside : address + 4 ≤ addressSpace := Nat.le_trans (Nat.le_add_right _ _) laid.room
        exact ⟨fits, inside, (ih inside).mpr ⟨laid, same⟩⟩

theorem names_positions (address : Nat) (statements : List Statement) :
    (positions address statements).map Prod.fst = Statement.names statements := by
  induction statements generalizing address with
  | nil => rfl
  | cons statement rest ih =>
    cases statement with
    | declaration label => exact congrArg (label.name :: ·) (ih address)
    | instruction line => exact ih (address + 4)

theorem mem_positions_iff {position : String × Nat} :
    position ∈ positions address statements ↔ ∃ before label after,
      statements = before ++ .declaration label :: after ∧
        position = (label.name, address + 4 * Statement.count before) := by
  induction statements generalizing address with
  | nil => simp [positions]
  | cons statement rest ih =>
    cases statement with
    | declaration own =>
      rw [positions, List.mem_cons, ih]
      constructor
      · rintro (rfl | ⟨before, label, after, rfl, same⟩)
        · exact ⟨[], own, rest, rfl, rfl⟩
        · exact ⟨.declaration own :: before, label, after, rfl, same⟩
      · rintro ⟨before, label, after, split, same⟩
        rcases List.cons_eq_append_iff.mp split with ⟨rfl, here⟩ | ⟨others, rfl, within⟩
        · cases here
          exact .inl same
        · exact .inr ⟨others, label, after, within, same⟩
    | instruction line =>
      rw [positions, ih]
      constructor
      · rintro ⟨before, label, after, rfl, same⟩
        refine ⟨.instruction line :: before, label, after, rfl, ?_⟩
        rw [same, Statement.count_instruction]
        congr 1
        omega
      · rintro ⟨before, label, after, split, same⟩
        rcases List.cons_eq_append_iff.mp split with ⟨rfl, here⟩ | ⟨others, rfl, within⟩
        · cases here
        · refine ⟨others, label, after, within, ?_⟩
          rw [same, Statement.count_instruction]
          congr 1
          omega

theorem mem_instructions_iff {line : InstructionLine} :
    line ∈ statements.filterMap Statement.instruction? ↔ .instruction line ∈ statements := by
  rw [List.mem_filterMap]
  constructor
  · rintro ⟨statement, member, same⟩
    cases statement with
    | declaration label => cases same
    | instruction own =>
      cases same
      exact member
  · intro member
    exact ⟨_, member, rfl⟩

/-- The table that is built for statements with a layout. -/
def ofPositions (statements : List Statement) (base : UInt16) : Labels :=
  ⟨base, ((positions base.toNat statements).map entry).reverse⟩

theorem names_ofPositions (statements : List Statement) (base : UInt16) :
    (ofPositions statements base).places.map Prod.fst = (Statement.names statements).reverse := by
  rw [ofPositions, List.map_reverse, List.map_map, ← names_positions base.toNat]
  rfl

theorem address?_ofPositions_eq_none_iff {base : UInt16} {name : String} :
    (ofPositions statements base).address? name = none ↔ name ∉ Statement.names statements := by
  rw [address?, lookup_eq_none_iff_not_mem, names_ofPositions, List.mem_reverse]

theorem exists_address?_ofPositions_iff {base : UInt16} {name : String} :
    (∃ address, (ofPositions statements base).address? name = some address) ↔
      name ∈ Statement.names statements := by
  rw [← Option.isSome_iff_exists, Option.isSome_iff_ne_none, ne_eq,
    address?_ofPositions_eq_none_iff, not_not]

/-- What placing checks from a base on, and that references are declared, is to have a layout. -/
theorem hasLayout_iff {base : UInt16} : Statement.HasLayout statements base ↔
    Laid base.toNat [] statements ∧ ∀ line, .instruction line ∈ statements →
      ∀ operand ∈ line.operands, ∀ name, operand.label? = some name →
        name ∈ Statement.names statements := by
  constructor
  · rintro ⟨distinct, inside, room, narrow, defined⟩
    refine ⟨⟨distinct, fun _ _ => rfl, ?_, room, narrow⟩, defined⟩
    intro position member
    obtain ⟨before, label, after, split, rfl⟩ := mem_positions_iff.mp member
    exact inside before label after split
  · rintro ⟨⟨distinct, -, inside, room, narrow⟩, defined⟩
    refine ⟨distinct, ?_, room, narrow, defined⟩
    intro before label after split
    exact inside _ (mem_positions_iff.mpr ⟨before, label, after, split, rfl⟩)

/-- A table of the labels of statements has an address for all that they refer to. -/
theorem undefined?_ofPositions_eq_none_iff {base : UInt16} :
    (ofPositions statements base).undefined?
        ((statements.filterMap Statement.instruction?).flatMap InstructionLine.arguments) = none ↔
      ∀ line, .instruction line ∈ statements → ∀ operand ∈ line.operands, ∀ name,
        operand.label? = some name → name ∈ Statement.names statements := by
  rw [undefined?_eq_none_iff]
  simp only [exists_address?_ofPositions_iff]
  constructor
  · intro complete line member operand inLine name refers
    obtain ⟨argument, inArguments, rfl⟩ := List.mem_map.mp inLine
    have listed := List.mem_flatMap.mpr ⟨line, mem_instructions_iff.mpr member, inArguments⟩
    exact complete argument listed name refers
  · intro defined argument listed name refers
    obtain ⟨line, member, inArguments⟩ := List.mem_flatMap.mp listed
    exact defined line (mem_instructions_iff.mp member) _ (List.mem_map_of_mem inArguments) name
      refers

theorem place_base_eq_ok_iff {base : UInt16} :
    place base.toNat [] statements = .ok places ↔
      Laid base.toNat [] statements ∧ Labels.mk base places = ofPositions statements base := by
  have start : base.toNat ≤ addressSpace := Nat.le_of_lt base.toNat_lt
  rw [place_eq_ok_iff start, List.append_nil, ofPositions]
  simp

theorem build_eq_ok_iff {base : UInt16} {labels : Labels} :
    build statements base = .ok labels ↔
      Statement.HasLayout statements base ∧ labels = ofPositions statements base := by
  rw [hasLayout_iff, ← undefined?_ofPositions_eq_none_iff, build, bind_eq_ok_iff]
  constructor
  · rintro ⟨places, placed, built⟩
    obtain ⟨laid, table⟩ := place_base_eq_ok_iff.mp placed
    dsimp only at built
    rw [table] at built
    split at built
    · cases built
    · next complete =>
      cases built
      exact ⟨⟨laid, complete⟩, rfl⟩
  · rintro ⟨⟨laid, complete⟩, rfl⟩
    refine ⟨_, place_base_eq_ok_iff.mpr ⟨laid, rfl⟩, ?_⟩
    unfold ofPositions at complete ⊢
    dsimp only
    rw [complete]
    rfl

theorem precedes_iff {a b : String × UInt16} :
    precedes a b = true ↔ a.2 < b.2 ∨ a.2 = b.2 ∧ a.1 ≤ b.1 := by
  simp [precedes]

theorem precedes_trans (a b c : String × UInt16) (first : precedes a b = true)
    (second : precedes b c = true) : precedes a c = true := by
  rw [precedes_iff] at *
  rcases first with below | ⟨level, order⟩
  · rcases second with next | ⟨same, -⟩
    · exact .inl (UInt16.lt_trans below next)
    · exact .inl (same ▸ below)
  · rcases second with next | ⟨same, rest⟩
    · exact .inl (level ▸ next)
    · exact .inr ⟨level.trans same, String.le_trans order rest⟩

theorem precedes_total (a b : String × UInt16) : (precedes a b || precedes b a) = true := by
  rw [Bool.or_eq_true, precedes_iff, precedes_iff]
  rcases Nat.lt_trichotomy a.2.toNat b.2.toNat with below | level | above
  · exact .inl (.inl below)
  · have level := UInt16.toNat_inj.mp level
    rcases String.le_total a.1 b.1 with order | order
    · exact .inl (.inr ⟨level, order⟩)
    · exact .inr (.inr ⟨level.symm, order⟩)
  · exact .inr (.inl above)

/-- The entries of a table with distinct names stand in strict order, by address and then by
name. -/
theorem entries_ordered {labels : Labels} (distinct : (labels.places.map Prod.fst).Nodup) :
    labels.entries.Pairwise fun a b => a.2 < b.2 ∨ a.2 = b.2 ∧ a.1 < b.1 := by
  have sorted := List.pairwise_mergeSort precedes_trans precedes_total labels.places
  have names : (labels.entries.map Prod.fst).Nodup :=
    ((List.mergeSort_perm labels.places precedes).map Prod.fst).nodup_iff.mpr distinct
  refine sorted.imp₂ ?_ (List.pairwise_map.mp names)
  intro a b order other
  rcases precedes_iff.mp order with below | ⟨level, order⟩
  · exact .inl below
  · exact .inr ⟨level, Std.lt_of_le_of_ne order other⟩

theorem nodup_ofPositions {base : UInt16} (layout : Statement.HasLayout statements base) :
    ((ofPositions statements base).places.map Prod.fst).Nodup := by
  rw [names_ofPositions]
  exact List.nodup_reverse.mpr layout.distinct

theorem describes_ofPositions {base : UInt16} (layout : Statement.HasLayout statements base) :
    (ofPositions statements base).Describes statements base := by
  have built := build_eq_ok_iff.mpr ⟨layout, rfl⟩
  have distinct := nodup_ofPositions layout
  have sorting := List.mergeSort_perm (ofPositions statements base).places precedes
  refine ⟨?_, ?_, ?_, ?_, entries_ordered distinct⟩
  · intro before label after split
    rw [split] at built
    rw [split]
    exact address?_of_build built
  · intro name absent
    exact address?_ofPositions_eq_none_iff.mpr absent
  · intro name address
    exact sorting.mem_iff.trans (mem_iff_lookup distinct)
  · exact (sorting.map Prod.fst).nodup_iff.mpr distinct

/-- A label table is built just for the statements that have a layout, and then describes them. -/
theorem build_iff_hasLayout (statements : List Statement) (base : UInt16) :
    ((∃ labels, build statements base = .ok labels) ↔ Statement.HasLayout statements base) ∧
      ∀ labels, build statements base = .ok labels → labels.Describes statements base := by
  refine ⟨⟨?_, ?_⟩, ?_⟩
  · rintro ⟨labels, built⟩
    exact (build_eq_ok_iff.mp built).1
  · intro layout
    exact ⟨_, build_eq_ok_iff.mpr ⟨layout, rfl⟩⟩
  · intro labels built
    obtain ⟨layout, rfl⟩ := build_eq_ok_iff.mp built
    exact describes_ofPositions layout

/-- Two labels at one unaligned place and a third, named before it is declared, at the last address;
one more instruction would have no room. -/
theorem build_iff_hasLayout_last_address :
    (∃ statements labels,
      Statement.parse Table.standard ".b\n.a\nJMP (.end)\n.end" = .ok statements ∧
      build statements 0xFFFB = .ok labels ∧ labels.address? "end" = some 0xFFFF ∧
      Statement.HasLayout statements 0xFFFB ∧ labels.Describes statements 0xFFFB) ∧
    ∃ statements, Statement.parse Table.standard "HLT\n.end" = .ok statements ∧
      ¬ Statement.HasLayout statements 0xFFFC := by
  refine ⟨⟨_, _, rfl, rfl, rfl, ?_, ?_⟩, ⟨_, rfl, ?_⟩⟩
  · exact (build_iff_hasLayout _ 0xFFFB).1.mp ⟨_, rfl⟩
  · exact (build_iff_hasLayout _ 0xFFFB).2 _ rfl
  · intro layout
    obtain ⟨labels, built⟩ := (build_iff_hasLayout _ 0xFFFC).1.mpr layout
    cases built

end Labels

end Tetrad
