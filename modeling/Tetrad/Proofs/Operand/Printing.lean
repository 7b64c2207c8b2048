import Tetrad.Proofs.Operand.Exclusion
import Tetrad.Proofs.Word.Operands

namespace Tetrad

open Source

/-- The label that an operand refers to is a name. -/
def Operand.Named (operand : Operand) : Prop :=
  ∀ name, operand.label? = some name → isLabelName name.toList = true

/-- Text can say the operand: its values fit their fields and its label is a name. -/
structure Operand.Writable (operand : Operand) : Prop where
  inRange : operand.InRange
  named : operand.Named

theorem RegisterName.resolve_ofRegister (register : Register) :
    (ofRegister register).resolve = .ok register := by
  have all : ∀ index : Fin 16, (ofRegister ⟨index⟩).resolve = .ok ⟨index⟩ := by decide
  exact all register.index

theorem toList_decimal (n : Nat) : (Numeral.decimal n).toList = Numeral.digits 10 n :=
  String.toList_ofList

theorem isNumber_decimal (n : Nat) : IsNumber (Numeral.decimal n).toList n := by
  rw [toList_decimal]
  exact readNumber?_eq_some_iff.mp (readNumber?_digits n)

theorem isRegister_text (register : Register) :
    IsRegister register.text.toList (.ofRegister register) :=
  RegisterName.read?_eq_some_iff.mp (RegisterName.read?_text register)

theorem halfWord_toNat (value : UInt16) : halfWord value.toNat = .ok value := by
  have small : value.toNat ≤ 0xFFFF := Nat.le_of_lt_succ value.toNat_lt
  rw [halfWord, bounded, if_pos small, Except.map, UInt16.ofNat_toNat]

namespace Operand

variable {operand : Operand}

/-- The shape of an operand as its text writes it. -/
def shape : Operand → Shape
  | immediate value => .immediate value.toNat
  | direct address => .direct address.toNat
  | indirect (.absolute address) => .indirect address.toNat
  | indirect (.label name) => .indirectLabel name.toList
  | register r => .register (.ofRegister r)
  | registerIndirect r => .registerIndirect (.ofRegister r)
  | registerRelative offset r => .registerRelative offset.toNat (.ofRegister r)
  | indexedScaled base scale r => .indexedScaled base.toNat scale.toNat (.ofRegister r)
  | pcRelative offset => .pcRelative offset.toNat
  | label name => .label name.toList

theorem written_text (named : operand.Named) : operand.shape.Written operand.text.toList := by
  cases operand with
  | immediate value =>
    simpa [text, shape] using Shape.Written.immediate (isNumber_decimal value.toNat)
  | direct address => exact .direct (isNumber_decimal address.toNat)
  | indirect pointer =>
    cases pointer with
    | absolute address =>
      simpa [text, Address.text, shape] using
        Shape.Written.indirect (isNumber_decimal address.toNat)
    | label name =>
      simpa [text, Address.text, shape] using Shape.Written.indirectLabel (named name rfl)
  | register r => exact .register (isRegister_text r)
  | registerIndirect r =>
    simpa [text, shape] using Shape.Written.registerIndirect (isRegister_text r)
  | registerRelative offset r =>
    simpa [text, shape] using
      Shape.Written.registerRelative (isNumber_decimal offset.toNat) (isRegister_text r)
  | indexedScaled base scale r =>
    simpa [text, shape] using Shape.Written.indexedScaled (isNumber_decimal base.toNat)
      (isNumber_decimal scale.toNat) (isRegister_text r)
  | pcRelative offset =>
    simpa [text, shape] using Shape.Written.pcRelative (isNumber_decimal offset.toNat)
  | label name => simpa [text, shape] using Shape.Written.label (named name rfl)

theorem resolve_shape (inRange : operand.InRange) : operand.shape.resolve = .ok operand := by
  cases operand with
  | immediate value | direct value | pcRelative value =>
    simp [shape, Shape.resolve, halfWord_toNat, Except.map]
  | indirect pointer =>
    cases pointer with
    | absolute address => simp [shape, Shape.resolve, halfWord_toNat, Except.map]
    | label name => simp [shape, Shape.resolve]
  | register r | registerIndirect r =>
    simp [shape, Shape.resolve, RegisterName.resolve_ofRegister, Except.map]
  | registerRelative offset r =>
    simp [shape, Shape.resolve, halfWord_toNat, RegisterName.resolve_ofRegister, bind, Except.bind,
      pure, Except.pure]
  | indexedScaled base scale r =>
    obtain ⟨small, few⟩ := inRange
    simp [shape, Shape.resolve, bounded, small, few, RegisterName.resolve_ofRegister, bind,
      Except.bind, pure, Except.pure]
  | label name => simp [shape, Shape.resolve]

theorem resolve_text (writable : operand.Writable) : resolve operand.text = .ok operand := by
  rw [resolve, Shape.read?_eq_some_iff.mpr (written_text writable.named)]
  exact resolve_shape writable.inRange

/-- A text that is read as an operand with a label is that label, bare or between parentheses. -/
theorem text_of_resolve {text name : String} (resolved : resolve text = .ok operand)
    (refers : operand.label? = some name) : isLabelName name.toList = true ∧
      (text = "." ++ name ∨ text = "(." ++ name ++ ")") := by
  unfold resolve at resolved
  split at resolved
  · cases resolved
  · next shape found =>
    have written := (Shape.read?_eq_some_iff.mp found).labelIn
    cases shape with
    | label own =>
      cases resolved
      cases refers
      refine ⟨by simp [written.2], .inl ?_⟩
      rw [← String.toList_inj]
      simp [written.1]
    | indirectLabel own =>
      cases resolved
      cases refers
      refine ⟨by simp [written.2], .inr ?_⟩
      rw [← String.toList_inj]
      simp [written.1]
    | registerRelative offset own =>
      obtain ⟨value, -, resolved⟩ := bind_eq_ok_iff.mp resolved
      obtain ⟨register, -, resolved⟩ := bind_eq_ok_iff.mp resolved
      cases resolved
      cases refers
    | indexedScaled base scale own =>
      obtain ⟨base, -, resolved⟩ := bind_eq_ok_iff.mp resolved
      obtain ⟨scale, -, resolved⟩ := bind_eq_ok_iff.mp resolved
      obtain ⟨register, -, resolved⟩ := bind_eq_ok_iff.mp resolved
      cases resolved
      cases refers
    | _ =>
      obtain ⟨value, -, rfl⟩ := map_eq_ok_iff.mp resolved
      cases refers

theorem named_of_resolve {text : String} (resolved : resolve text = .ok operand) :
    operand.Named := fun _ refers => (text_of_resolve resolved refers).1

end Operand

/-- A character that the text of an operand can hold. -/
def isShown (c : Char) : Bool :=
  c.isAlphanum || ['#', '(', ')', '$', '+', '*', '.', '_'].contains c

theorem isSeparator_of_isShown {c : Char} (shown : isShown c = true) : isSeparator c = false := by
  unfold isShown at shown
  rcases Bool.or_eq_true_iff.mp shown with solid | mark
  · exact isSeparator_of_isAlphanum solid
  · simp only [List.contains_iff_mem, List.mem_cons, List.not_mem_nil, or_false] at mark
    rcases mark with rfl | rfl | rfl | rfl | rfl | rfl | rfl | rfl <;> decide

theorem all_isShown {text : List Char} (solid : ∀ c ∈ text, c.isAlphanum = true) :
    text.all isShown = true := by
  refine List.all_eq_true.mpr ?_
  intro c member
  rw [isShown, solid c member, Bool.true_or]

theorem isShown_decimal (n : Nat) : (Numeral.decimal n).toList.all isShown = true := by
  rw [toList_decimal]
  exact all_isShown fun c => isAlphanum_of_mem_digits

theorem isShown_register (register : Register) : register.text.toList.all isShown = true := by
  obtain ⟨name, written, solid⟩ := register.text_eq_sigil
  rw [written, List.all_cons, all_isShown solid]
  rfl

theorem isShown_label {name : String} (valid : isLabelName name.toList = true) :
    ("." ++ name).toList.all isShown = true := by
  have inner : name.toList.all isShown = true := by
    refine List.all_eq_true.mpr ?_
    intro c member
    rcases isLabelName_chars valid c member with solid | rfl
    · rw [isShown, solid, Bool.true_or]
    · rfl
  rw [String.toList_append, List.all_append, inner]
  rfl

namespace Operand

variable {operand : Operand}

theorem isShown_text (named : operand.Named) : operand.text.toList.all isShown = true := by
  cases operand with
  | immediate value =>
    simp only [text, String.toList_append, List.all_append, isShown_decimal, Bool.and_true]
    rfl
  | direct address => exact isShown_decimal _
  | indirect pointer =>
    have inner : pointer.text.toList.all isShown = true := by
      cases pointer with
      | absolute address => exact isShown_decimal _
      | label name => exact isShown_label (named name rfl)
    simp only [text, String.toList_append, List.all_append, inner, Bool.and_true]
    rfl
  | register r => exact isShown_register r
  | registerIndirect r =>
    simp only [text, String.toList_append, List.all_append, isShown_register, Bool.and_true]
    rfl
  | registerRelative offset r =>
    simp only [text, String.toList_append, List.all_append, isShown_decimal, isShown_register,
      Bool.and_true]
    rfl
  | indexedScaled base scale r =>
    simp only [text, String.toList_append, List.all_append, isShown_decimal, isShown_register,
      Bool.and_true]
    rfl
  | pcRelative offset =>
    simp only [text, String.toList_append, List.all_append, isShown_decimal, Bool.and_true]
    rfl
  | label name => exact isShown_label (named name rfl)

theorem isWord_text (named : operand.Named) : IsWord operand.text.toList := by
  have shown := List.all_eq_true.mp (isShown_text named)
  refine ⟨?_, ?_, ?_⟩
  · intro empty
    have read := Shape.read?_eq_some_iff.mpr (written_text named)
    rw [empty] at read
    cases read
  · intro c member
    exact isSeparator_of_isShown (shown c member)
  · refine uncommented_of_not_mem ?_
    intro member
    cases shown '/' member

end Operand

end Tetrad
