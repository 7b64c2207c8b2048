import Tetrad.Proofs.Word.Modes
import Tetrad.Proofs.Word.Reading

namespace Tetrad

/-- The operand with each value cut to its field: a scaled base to 12 bits and a scale to 4. -/
def Operand.cut : Operand → Operand
  | .indexedScaled base scale r => .indexedScaled (base % 0x1000) (scale % 0x10) r
  | operand => operand

/-- The values of an operand fit their fields. -/
def Operand.InRange : Operand → Prop
  | .indexedScaled base scale _ => base.toNat ≤ 0xFFF ∧ scale.toNat ≤ 0xF
  | _ => True

namespace Operand

theorem cut_of_inRange {operand : Operand} (inRange : operand.InRange) : operand.cut = operand := by
  cases operand with
  | indexedScaled base scale r =>
    obtain ⟨small, few⟩ := inRange
    have base_eq : base % 0x1000 = base := by
      apply UInt16.toNat_inj.mp
      rw [UInt16.toNat_mod]
      exact Nat.mod_eq_of_lt (Nat.lt_succ_of_le small)
    have scale_eq : scale % 0x10 = scale := by
      apply UInt8.toNat_inj.mp
      rw [UInt8.toNat_mod]
      exact Nat.mod_eq_of_lt (Nat.lt_succ_of_le few)
    rw [cut, base_eq, scale_eq]
  | _ => rfl

theorem map_cut_of_inRange {operands : List Operand}
    (inRange : ∀ operand ∈ operands, operand.InRange) : operands.map cut = operands := by
  rw [List.map_congr_left fun operand member => cut_of_inRange (inRange operand member)]
  exact List.map_id _

theorem fields?_isSome_iff (operand : Operand) :
    operand.fields?.isSome ↔ operand.label? = none := by
  cases operand with
  | indirect pointer => cases pointer <;> simp [fields?, label?]
  | _ => simp [fields?, label?]

/-- The fields of an operand take the bits of its mode. -/
theorem total_fields {operand : Operand} {fields : List Field}
    (has : operand.fields? = some fields) : Field.total fields = operand.mode.width := by
  cases operand with
  | label name => cases has
  | indirect pointer =>
    cases pointer with
    | absolute address => cases has; rfl
    | label name => cases has
  | _ => cases has; rfl

theorem mode_ne_label {operand : Operand} {fields : List Field}
    (has : operand.fields? = some fields) : operand.mode ≠ .label := by
  cases operand with
  | label name => cases has
  | _ => exact Mode.noConfusion

/-- The fields of a list of operands take the bits of their modes. -/
theorem total_fields_flatten {operands : List Operand} {fields : List (List Field)}
    (all : List.Forall₂ (fun operand own => operand.fields? = some own) operands fields) :
    Field.total fields.flatten = ((operands.map mode).map Mode.width).foldr (· + ·) 0 := by
  induction all with
  | nil => rfl
  | cons has _ ih =>
    rw [List.flatten_cons, Field.total_append, total_fields has, ih]
    rfl

end Operand

namespace Cursor

open FieldSource

theorem take_source (cursor : Cursor) (width : Nat) :
    FieldSource.take cursor width = cursor.take width := rfl

theorem takeValue_of_reads {cursor last : Cursor} {value : UInt16} {rest : List Field}
    (reads : cursor.Reads (valueField value :: rest) last) :
    ∃ next, takeValue cursor = (value, next) ∧ next.Reads rest last := by
  obtain ⟨-, next, taken, later⟩ := reads_cons_iff.mp reads
  have small : value.toNat % 2 ^ 16 = value.toNat := Nat.mod_eq_of_lt value.toNat_lt
  refine ⟨next, ?_, later⟩
  simp only [valueField, small] at taken
  simp only [takeValue, take_source, taken, UInt16.ofNat_toNat]

theorem takeRegister_of_reads {cursor last : Cursor} {register : Register} {rest : List Field}
    (reads : cursor.Reads (register.field :: rest) last) :
    ∃ next, takeRegister cursor = (register, next) ∧ next.Reads rest last := by
  obtain ⟨-, next, taken, later⟩ := reads_cons_iff.mp reads
  have small : register.index.val % 2 ^ 4 = register.index.val :=
    Nat.mod_eq_of_lt register.index.isLt
  refine ⟨next, ?_, later⟩
  simp only [Register.field, small] at taken
  have same : register.index.val % 16 = register.index.val := small
  simp only [takeRegister, take_source, taken, same]

theorem ofNat_base (base : UInt16) : UInt16.ofNat (base.toNat % 2 ^ 12) = base % 0x1000 := by
  apply UInt16.toNat_inj.mp
  rw [UInt16.toNat_ofNat', UInt16.toNat_mod]
  show base.toNat % 4096 % 65536 = base.toNat % 4096
  omega

theorem ofNat_scale (scale : UInt8) : UInt8.ofNat (scale.toNat % 2 ^ 4) = scale % 0x10 := by
  apply UInt8.toNat_inj.mp
  rw [UInt8.toNat_ofNat', UInt8.toNat_mod]
  show scale.toNat % 16 % 256 = scale.toNat % 16
  omega

/-- A cursor that finds the fields of an operand reads the operand, cut to its fields. -/
theorem takeOperand_of_reads {cursor last : Cursor} {operand : Operand} {fields : List Field}
    (has : operand.fields? = some fields) (reads : cursor.Reads fields last) :
    takeOperand cursor operand.mode = (operand.cut, last) := by
  cases operand with
  | immediate value | direct value | pcRelative value =>
    cases has
    obtain ⟨next, taken, done⟩ := takeValue_of_reads reads
    cases reads_nil_iff.mp done
    simp only [Operand.mode, takeOperand, taken]
    rfl
  | indirect pointer =>
    cases pointer with
    | label name => cases has
    | absolute address =>
      cases has
      obtain ⟨next, taken, done⟩ := takeValue_of_reads reads
      cases reads_nil_iff.mp done
      simp only [Operand.mode, takeOperand, taken]
      rfl
  | register r | registerIndirect r =>
    cases has
    obtain ⟨next, taken, done⟩ := takeRegister_of_reads reads
    cases reads_nil_iff.mp done
    simp only [Operand.mode, takeOperand, taken]
    rfl
  | registerRelative offset r =>
    cases has
    obtain ⟨middle, first, reads⟩ := takeRegister_of_reads reads
    obtain ⟨next, second, done⟩ := takeValue_of_reads reads
    cases reads_nil_iff.mp done
    simp only [Operand.mode, takeOperand, first, second]
    rfl
  | indexedScaled base scale r =>
    cases has
    obtain ⟨middle, first, reads⟩ := takeRegister_of_reads reads
    obtain ⟨-, other, second, reads⟩ := reads_cons_iff.mp reads
    obtain ⟨-, next, third, done⟩ := reads_cons_iff.mp reads
    cases reads_nil_iff.mp done
    simp only [Operand.mode, takeOperand, take_source, first, second, third, Operand.cut, ofNat_base,
      ofNat_scale]
  | label name => cases has

theorem reads_takeValue {cursor : Cursor} (bounded : cursor.Bounded) (fits : 16 ≤ cursor.room) :
    cursor.Reads [valueField (takeValue cursor).1] (takeValue cursor).2 := by
  have found := reads_take bounded fits
  have small : (cursor.take 16).1 < 2 ^ 16 := take_lt bounded fits
  have value : (UInt16.ofNat (cursor.take 16).1).toNat = (cursor.take 16).1 :=
    UInt16.toNat_ofNat_of_lt' small
  show cursor.Reads [⟨(UInt16.ofNat (cursor.take 16).1).toNat, 16⟩] (cursor.take 16).2
  rw [value]
  exact found

theorem reads_takeRegister {cursor : Cursor} (bounded : cursor.Bounded) (fits : 4 ≤ cursor.room) :
    cursor.Reads [(takeRegister cursor).1.field] (takeRegister cursor).2 := by
  have found := reads_take bounded fits
  have small : (cursor.take 4).1 < 2 ^ 4 := take_lt bounded fits
  have index : (cursor.take 4).1 % 16 = (cursor.take 4).1 := Nat.mod_eq_of_lt small
  show cursor.Reads [⟨(cursor.take 4).1 % 16, 4⟩] (cursor.take 4).2
  rw [index]
  exact found

/-- What a cursor reads for a mode is an operand of that mode, with just the fields that the cursor
finds, all its values fitting them. -/
theorem reads_takeOperand {cursor : Cursor} {mode : Mode} (bounded : cursor.Bounded)
    (fits : mode.width ≤ cursor.room) (plain : mode ≠ .label) :
    (takeOperand cursor mode).1.mode = mode ∧ (takeOperand cursor mode).1.InRange ∧
      ∃ fields, (takeOperand cursor mode).1.fields? = some fields ∧
        cursor.Reads fields (takeOperand cursor mode).2 := by
  cases mode with
  | label => exact absurd rfl plain
  | immediate | direct | indirect | pcRelative =>
    exact ⟨rfl, trivial, _, rfl, reads_takeValue bounded fits⟩
  | register | registerIndirect => exact ⟨rfl, trivial, _, rfl, reads_takeRegister bounded fits⟩
  | registerRelative =>
    have fits : 20 ≤ cursor.room := fits
    have first := reads_takeRegister bounded (by omega)
    have room : (takeRegister cursor).2.room = cursor.room - 4 := rfl
    have second := reads_takeValue (first.bounded bounded) (by omega)
    exact ⟨rfl, trivial, _, rfl, first.append second⟩
  | indexedScaled =>
    have fits : 20 ≤ cursor.room := fits
    have first := reads_takeRegister bounded (by omega)
    have room : (takeRegister cursor).2.room = cursor.room - 4 := rfl
    have after := first.bounded bounded
    have scaleFits : 4 ≤ (takeRegister cursor).2.room := by omega
    have second := reads_take after scaleFits
    have left : ((takeRegister cursor).2.take 4).2.room = (takeRegister cursor).2.room - 4 := rfl
    have baseFits : 12 ≤ ((takeRegister cursor).2.take 4).2.room := by omega
    have third := reads_take (second.bounded after) baseFits
    have few := take_lt after scaleFits
    have small := take_lt (second.bounded after) baseFits
    have scale := UInt8.toNat_ofNat_of_lt' (Nat.lt_trans few (by decide : 2 ^ 4 < UInt8.size))
    have base := UInt16.toNat_ofNat_of_lt' (Nat.lt_trans small (by decide : 2 ^ 12 < UInt16.size))
    refine ⟨rfl, ⟨?_, ?_⟩, _, rfl, ?_⟩
    · exact Nat.le_of_lt_succ (base.symm ▸ small)
    · exact Nat.le_of_lt_succ (scale.symm ▸ few)
    · have found := first.append (second.append third)
      rw [← scale, ← base] at found
      exact found

theorem readOperand_eq_ok_iff {cursor last : Cursor} {mode : Mode} {operand : Operand} :
    readOperand cursor mode = (.ok operand, last) ↔
      mode.width ≤ cursor.room ∧ takeOperand cursor mode = (operand, last) := by
  have room : FieldSource.room cursor = cursor.room := rfl
  unfold readOperand
  rw [room]
  split
  · next tooWide => simp [Nat.not_le.mpr tooWide]
  · next fits => simp [Nat.le_of_not_lt fits, Prod.ext_iff]

theorem readOperands_cons_eq_ok_iff {cursor last : Cursor} {tag position : Nat} {set : ModeSet}
    {sets : List ModeSet} {operands : List Operand} :
    readOperands cursor tag position (set :: sets) = (.ok operands, last) ↔
      ∃ mode operand next rest, set.decoded? tag = some mode ∧
        readOperand cursor mode = (.ok operand, next) ∧
        readOperands next tag (position + 1) sets = (.ok rest, last) ∧
        operands = operand :: rest := by
  rw [readOperands]
  cases named : set.decoded? tag with
  | none => simp
  | some mode =>
    cases first : readOperand cursor mode with
    | mk result next =>
    cases result with
    | error reason => simp [first]
    | ok operand =>
      cases later : readOperands next tag (position + 1) sets with
      | mk others last =>
      cases others with
      | error reason => simp [first, later, Except.map]
      | ok rest => simp [first, later, Except.map, and_comm, eq_comm]

/-- A cursor that finds the fields of operands whose modes are decoded reads these operands, each
cut to its fields. -/
theorem operands_of_reads {cursor last : Cursor} {tag position : Nat} {sets : List ModeSet}
    {operands : List Operand} {fields : List (List Field)}
    (named : List.Forall₂ (fun set operand => set.decoded? tag = some operand.mode) sets operands)
    (has : List.Forall₂ (fun operand own => operand.fields? = some own) operands fields)
    (reads : cursor.Reads fields.flatten last) :
    readOperands cursor tag position sets = (.ok (operands.map Operand.cut), last) := by
  induction named generalizing cursor position fields with
  | nil =>
    cases has
    cases reads_nil_iff.mp reads
    rfl
  | @cons set operand sets operands named _ ih =>
    obtain ⟨own, others, own_has, others_have, rfl⟩ := List.forall₂_cons_left_iff.mp has
    obtain ⟨next, first, later⟩ := reads_append_iff.mp reads
    have fits : operand.mode.width ≤ cursor.room := by
      have room := first.room_eq
      rw [Operand.total_fields own_has] at room
      omega
    have taken := readOperand_eq_ok_iff.mpr ⟨fits, takeOperand_of_reads own_has first⟩
    exact readOperands_cons_eq_ok_iff.mpr ⟨operand.mode, operand.cut, next, operands.map Operand.cut,
      named, taken, ih others_have later, rfl⟩

/-- What a cursor reads for a list of positions has the modes that are decoded there and just the
fields that the cursor finds. -/
theorem reads_operands {cursor last : Cursor} {tag position : Nat} {sets : List ModeSet}
    {operands : List Operand} (bounded : cursor.Bounded)
    (read : readOperands cursor tag position sets = (.ok operands, last)) :
    List.Forall₂ (fun set operand => set.decoded? tag = some operand.mode) sets operands ∧
      (∀ operand ∈ operands, operand.InRange) ∧
      ∃ fields, List.Forall₂ (fun operand own => operand.fields? = some own) operands fields ∧
        cursor.Reads fields.flatten last := by
  induction sets generalizing cursor position operands with
  | nil =>
    cases read
    exact ⟨.nil, by simp, [], .nil, .nil _⟩
  | cons set sets ih =>
    obtain ⟨mode, operand, next, rest, named, taken, later, rfl⟩ := readOperands_cons_eq_ok_iff.mp read
    obtain ⟨fits, taken⟩ := readOperand_eq_ok_iff.mp taken
    have plain := (ModeSet.decoded?_eq_some_iff.mp named).2.1
    obtain ⟨same, inRange, own, has, first⟩ := reads_takeOperand bounded fits plain
    rw [taken] at same inRange has first
    obtain ⟨allNamed, allInRange, fields, have_, reads⟩ := ih (first.bounded bounded) later
    refine ⟨.cons (same ▸ named) allNamed, ?_, own :: fields, .cons has have_, first.append reads⟩
    intro other member
    rcases List.mem_cons.mp member with rfl | inRest
    · exact inRange
    · exact allInRange other inRest

end Cursor

end Tetrad
