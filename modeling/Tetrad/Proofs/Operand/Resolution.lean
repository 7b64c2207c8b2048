import Tetrad.Proofs.Failure
import Tetrad.Proofs.Operand.Exclusion
import Tetrad.Proofs.Operand.Printing

namespace Tetrad

variable {text : List Char} {shape : Shape}

/-- The numbers of a shape, each with the largest one that its field takes. -/
def Shape.fields : Shape → List (Nat × Nat)
  | immediate value | direct value | indirect value | pcRelative value => [(value, 65535)]
  | registerRelative offset _ => [(offset, 65535)]
  | indexedScaled base scale _ => [(base, 4095), (scale, 15)]
  | indirectLabel _ | register _ | registerIndirect _ | label _ => []

/-- Some number is too large for its field. -/
def Shape.TooLarge (shape : Shape) : Prop := ∃ field ∈ shape.fields, field.2 < field.1

theorem halfWord_eq_ok_iff {n : Nat} {value : UInt16} :
    halfWord n = .ok value ↔ value.toNat = n := by
  constructor
  · intro read
    obtain ⟨result, own, rfl⟩ := map_eq_ok_iff.mp read
    obtain ⟨fits, rfl⟩ := bounded_eq_ok_iff.mp own
    exact UInt16.toNat_ofNat_of_lt' (Nat.lt_succ_of_le fits)
  · rintro rfl
    exact halfWord_toNat value

theorem halfWord_eq_error_iff {n : Nat} {reason : ResolveError} :
    halfWord n = .error reason ↔ 65535 < n ∧ reason = .valueOutOfRange := by
  rw [halfWord, map_eq_error_iff, bounded_eq_error_iff]

theorem exists_halfWord_iff {n : Nat} : (∃ value, halfWord n = .ok value) ↔ n ≤ 65535 := by
  constructor
  · rintro ⟨value, read⟩
    obtain ⟨result, own, -⟩ := map_eq_ok_iff.mp read
    exact (bounded_eq_ok_iff.mp own).1
  · intro fits
    exact ⟨_, map_eq_ok_iff.mpr ⟨n, bounded_eq_ok_iff.mpr ⟨fits, rfl⟩, rfl⟩⟩

theorem Register.general?_eq_none_iff {n : Nat} : general? n = none ↔ n < 1 ∨ 13 < n := by
  by_cases general : 1 ≤ n ∧ n ≤ 13
  · have inside : n < 16 := by omega
    simp only [general?, ofIndex?, general, inside, and_self, ↓reduceIte, ↓reduceDIte]
    simp only [reduceCtorEq, false_iff]
    omega
  · simp only [general?, general, ↓reduceIte, true_iff]
    omega

theorem Register.index_of_general? {n : Nat} {register : Register}
    (general : general? n = some register) :
    register.isGeneral = true ∧ register.index.val = n := by
  unfold general? at general
  split at general
  · next inside =>
    have small : n < 16 := by omega
    rw [ofIndex?, dif_pos small] at general
    cases general
    simp [isGeneral, inside]
  · cases general

namespace RegisterName

/-- No register has this name: it is a number that is not one of 1 to 13. -/
def Missing : RegisterName → Prop
  | named _ => False
  | numbered n => n < 1 ∨ 13 < n

theorem resolve_eq_error_iff {name : RegisterName} {reason : ResolveError} :
    name.resolve = .error reason ↔ name.Missing ∧ reason = .registerOutOfRange := by
  cases name with
  | named register => simp [resolve, Missing]
  | numbered n =>
    rw [Missing, ← Register.general?_eq_none_iff, resolve]
    cases Register.general? n <;> simp [eq_comm]

/-- A name that a text says is the one name of its register. -/
theorem ofRegister_of_resolve {name : RegisterName} {register : Register}
    (called : IsRegister text name) (resolved : name.resolve = .ok register) :
    ofRegister register = name := by
  have bare : ∃ text, IsBareRegister text name := by
    cases called with
    | bare named => exact ⟨_, named⟩
    | sigil named => exact ⟨_, named⟩
  obtain ⟨text, named⟩ := bare
  cases named with
  | zero | sp | cmp =>
    cases resolved
    rfl
  | @numbered _ _ n =>
    cases general : Register.general? n with
    | none =>
      simp only [resolve, general] at resolved
      cases resolved
    | some found =>
      simp only [resolve, general] at resolved
      cases resolved
      obtain ⟨own, rfl⟩ := Register.index_of_general? general
      rw [ofRegister, if_pos own]

end RegisterName

namespace Shape

def name? : Shape → Option RegisterName
  | register name | registerIndirect name => some name
  | registerRelative _ name | indexedScaled _ _ name => some name
  | immediate _ | direct _ | indirect _ | indirectLabel _ | pcRelative _ | label _ => none

/-- The shape names a register that does not exist. -/
def NoRegister (shape : Shape) : Prop := ∃ name, shape.name? = some name ∧ name.Missing

/-- Numbers are checked first, and a register only where all of them fit. -/
theorem resolve_eq_error_iff {reason : ResolveError} : shape.resolve = .error reason ↔
    shape.TooLarge ∧ reason = .valueOutOfRange ∨
      ¬ shape.TooLarge ∧ shape.NoRegister ∧ reason = .registerOutOfRange := by
  cases shape with
  | immediate value | direct value | indirect value | pcRelative value =>
    simp [resolve, map_eq_error_iff, halfWord_eq_error_iff, TooLarge, fields, NoRegister, name?]
  | indirectLabel name | label name =>
    simp [resolve, TooLarge, fields, NoRegister, name?]
  | register name | registerIndirect name =>
    simp [resolve, map_eq_error_iff, RegisterName.resolve_eq_error_iff, TooLarge, fields,
      NoRegister, name?]
  | registerRelative offset name =>
    simp [resolve, bind_eq_error_iff, halfWord_eq_error_iff, exists_halfWord_iff,
      RegisterName.resolve_eq_error_iff, pure, Except.pure, TooLarge, fields, NoRegister, name?]
  | indexedScaled base scale name =>
    by_cases small : base ≤ 4095
    · simp [resolve, bind_eq_error_iff, bounded_eq_error_iff, bounded_eq_ok_iff, small,
        Nat.not_lt.mpr small, RegisterName.resolve_eq_error_iff, pure, Except.pure, TooLarge,
        fields, NoRegister, name?]
    · have large : 4095 < base := Nat.lt_of_not_le small
      simp [resolve, bind_eq_error_iff, bounded_eq_error_iff, bounded_eq_ok_iff, small, large,
        TooLarge, fields]

theorem inRange_of_not_tooLarge {operand : Operand} (fits : ¬ operand.shape.TooLarge) :
    operand.InRange := by
  cases operand with
  | indexedScaled base scale register =>
    simpa [TooLarge, fields, Operand.shape, Operand.InRange] using fits
  | _ => trivial

/-- A shape that a text writes resolves to the operand that has this shape, if all numbers fit. -/
theorem resolve_eq_ok_iff {operand : Operand} (written : shape.Written text) :
    shape.resolve = .ok operand ↔ operand.shape = shape ∧ ¬ shape.TooLarge := by
  constructor
  · intro resolved
    refine ⟨?_, fun large => ?_⟩
    · cases written with
      | immediate | direct | bracketed | indirect | pcRelative =>
        obtain ⟨value, read, rfl⟩ := map_eq_ok_iff.mp resolved
        rw [Operand.shape, halfWord_eq_ok_iff.mp read]
      | indirectLabel | label =>
        cases resolved
        simp [Operand.shape]
      | register named | registerIndirect named =>
        obtain ⟨register, called, rfl⟩ := map_eq_ok_iff.mp resolved
        rw [Operand.shape, RegisterName.ofRegister_of_resolve named called]
      | registerRelative number named =>
        obtain ⟨offset, read, resolved⟩ := bind_eq_ok_iff.mp resolved
        obtain ⟨register, called, resolved⟩ := bind_eq_ok_iff.mp resolved
        cases resolved
        rw [Operand.shape, halfWord_eq_ok_iff.mp read,
          RegisterName.ofRegister_of_resolve named called]
      | indexedScaled number times named =>
        obtain ⟨base, read, resolved⟩ := bind_eq_ok_iff.mp resolved
        obtain ⟨scale, factor, resolved⟩ := bind_eq_ok_iff.mp resolved
        obtain ⟨register, called, resolved⟩ := bind_eq_ok_iff.mp resolved
        cases resolved
        obtain ⟨small, rfl⟩ := bounded_eq_ok_iff.mp read
        obtain ⟨few, rfl⟩ := bounded_eq_ok_iff.mp factor
        rw [Operand.shape, UInt16.toNat_ofNat_of_lt' (Nat.lt_of_le_of_lt small (by decide)),
          UInt8.toNat_ofNat_of_lt' (Nat.lt_of_le_of_lt few (by decide)),
          RegisterName.ofRegister_of_resolve named called]
    · rw [resolve_eq_error_iff.mpr (.inl ⟨large, rfl⟩)] at resolved
      cases resolved
  · rintro ⟨rfl, fits⟩
    exact Operand.resolve_shape (inRange_of_not_tooLarge fits)

end Shape

theorem inRange_of_resolve {text : String} {operand : Operand}
    (resolved : Operand.resolve text = .ok operand) : operand.InRange := by
  unfold Operand.resolve at resolved
  split at resolved
  · cases resolved
  · next shape found =>
    have written := Shape.read?_eq_some_iff.mp found
    obtain ⟨rfl, fits⟩ := (Shape.resolve_eq_ok_iff written).mp resolved
    exact Shape.inRange_of_not_tooLarge fits

/-- What a text resolves to. It is no operand if it writes no shape. A shape with a number that is
too large for its field is out of range, and one whose numbers fit has its register out of range if
this is numbered and not one of 1 to 13. Else the text is an operand, and writes the shape, the
values, the register and the label of just this one. -/
def Operand.Resolution (text : List Char) : Except ResolveError Operand → Prop
  | .error .unrecognized => ∀ shape, ¬ Shape.Written text shape
  | .error .valueOutOfRange => ∃ shape, Shape.Written text shape ∧ shape.TooLarge
  | .error .registerOutOfRange =>
    ∃ shape, Shape.Written text shape ∧ ¬ shape.TooLarge ∧ shape.NoRegister
  | .ok operand => Shape.Written text operand.shape ∧ ¬ operand.shape.TooLarge

namespace Operand

variable {text : String}

theorem resolve_of_written (written : Shape.Written text.toList shape) :
    resolve text = shape.resolve := by
  rw [resolve, Shape.read?_eq_some_iff.mpr written]

theorem resolve_of_not_written (unwritten : ∀ shape, ¬ Shape.Written text.toList shape) :
    resolve text = .error .unrecognized := by
  cases read : Shape.read? text.toList with
  | none => rw [resolve, read]
  | some shape => exact absurd (Shape.read?_eq_some_iff.mp read) (unwritten shape)

/-- A text resolves to what its shape, its numbers and its register say, and to nothing else. -/
theorem resolve_eq_iff (text : String) (result : Except ResolveError Operand) :
    resolve text = result ↔ Resolution text.toList result := by
  by_cases written : ∃ shape, Shape.Written text.toList shape
  · obtain ⟨shape, written⟩ := written
    have only : ∀ other, Shape.Written text.toList other ↔ other = shape := by
      refine fun other => ⟨fun rival => rival.unique written, ?_⟩
      rintro rfl
      exact written
    rw [resolve_of_written written]
    match result with
    | .error .unrecognized => simp [Resolution, only, Shape.resolve_eq_error_iff]
    | .error .valueOutOfRange => simp [Resolution, only, Shape.resolve_eq_error_iff]
    | .error .registerOutOfRange => simp [Resolution, only, Shape.resolve_eq_error_iff]
    | .ok operand =>
      rw [Shape.resolve_eq_ok_iff written, Resolution, only]
      exact and_congr_right fun same => by rw [same]
  · have unwritten := not_exists.mp written
    rw [resolve_of_not_written unwritten]
    match result with
    | .error .unrecognized => simp [Resolution, unwritten]
    | .error .valueOutOfRange => simp [Resolution, unwritten]
    | .error .registerOutOfRange => simp [Resolution, unwritten]
    | .ok operand => simp [Resolution, unwritten]

end Operand

end Tetrad
