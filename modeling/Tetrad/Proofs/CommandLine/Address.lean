import Tetrad.CommandLine.Address
import Tetrad.Operand.Resolve
import Tetrad.Proofs.Operand.Reading

/-!
# Numbers in a source and on the command line

An address is read in one pass that looks at the size of the number with every digit; the number of
an operand is read whole, and its size is looked at afterwards. Both come to the same
(`AddressArgument.accumulate_eq`), so an address is what an operand takes as a number, and one plus
sign in front of the digits is all that it allows besides (`AddressArgument.agrees_readNumber`).
-/

namespace Tetrad

variable {radix start n : Nat} {text digits : List Char} {address : UInt16}

namespace Numeral

/-- The number that digits make of one that was read in front of them. -/
def readFrom? (radix start : Nat) (text : List Char) : Option Nat :=
  text.foldlM (fun value c => (digitValue? radix c).map (value * radix + ·)) start

theorem readFrom?_cons_eq_some_iff {c : Char} {rest : List Char} :
    readFrom? radix start (c :: rest) = some n ↔
      ∃ digit, digitValue? radix c = some digit ∧
        readFrom? radix (start * radix + digit) rest = some n := by
  unfold readFrom?
  rw [List.foldlM_cons]
  cases digitValue? radix c <;> simp

/-- What is read of a number is never less than what was read before. -/
theorem le_of_readFrom? (several : 0 < radix) (read : readFrom? radix start text = some n) :
    start ≤ n := by
  induction text generalizing start with
  | nil =>
    cases read
    exact Nat.le_refl n
  | cons c rest ih =>
    obtain ⟨digit, -, later⟩ := readFrom?_cons_eq_some_iff.mp read
    calc start ≤ start * radix := Nat.le_mul_of_pos_right start several
      _ ≤ start * radix + digit := Nat.le_add_right _ _
      _ ≤ n := ih later

end Numeral

namespace AddressArgument

/-- The address that a number is, as the command line says it. -/
def ofNumber (n : Nat) : Except AddressError UInt16 :=
  (halfWord n).mapError fun _ => .tooLarge

theorem ofNumber_of_le (fits : n ≤ 0xFFFF) : ofNumber n = .ok (UInt16.ofNat n) := by
  rw [ofNumber, halfWord, bounded, if_pos fits]
  rfl

theorem ofNumber_of_gt (large : 0xFFFF < n) : ofNumber n = .error .tooLarge := by
  rw [ofNumber, halfWord, bounded, if_neg (Nat.not_le.mpr large)]
  rfl

theorem ofNumber_eq_ok_iff : ofNumber n = .ok address ↔ halfWord n = .ok address := by
  unfold ofNumber
  cases halfWord n <;> simp [Except.mapError]

/-- Where all characters are digits, looking at the size with every digit is looking at it once. -/
theorem accumulate_eq (several : 0 < radix) (small : start ≤ 0xFFFF)
    (read : Numeral.readFrom? radix start text = some n) :
    accumulate radix start text = ofNumber n := by
  induction text generalizing start with
  | nil =>
    cases read
    exact (ofNumber_of_le small).symm
  | cons c rest ih =>
    obtain ⟨digit, value, later⟩ := Numeral.readFrom?_cons_eq_some_iff.mp read
    rw [accumulate, value]
    dsimp only
    split
    · next large =>
      -- The digits that follow do not make the number smaller.
      have more := Numeral.le_of_readFrom? several later
      rw [ofNumber_of_gt (Nat.lt_of_lt_of_le large more)]
    · next fits => exact ih (Nat.le_of_not_lt fits) later

theorem exists_of_accumulate (read : accumulate radix start text = .ok address) :
    ∃ n, Numeral.readFrom? radix start text = some n := by
  induction text generalizing start with
  | nil => exact ⟨start, rfl⟩
  | cons c rest ih =>
    rw [accumulate] at read
    cases value : Numeral.digitValue? radix c with
    | none =>
      rw [value] at read
      cases read
    | some digit =>
      rw [value] at read
      dsimp only at read
      split at read
      · cases read
      · obtain ⟨n, later⟩ := ih read
        exact ⟨n, Numeral.readFrom?_cons_eq_some_iff.mpr ⟨digit, value, later⟩⟩

/-- Digits are read alike with a plus sign in front of them and without one. -/
theorem signed_eq (base : radix ≤ 16) (several : 0 < radix)
    (read : Numeral.read? radix text = some n) :
    signed radix text = ofNumber n ∧ signed radix ('+' :: text) = ofNumber n := by
  have denotes := (Numeral.read?_eq_some_iff base).mp read
  have unsigned : '+' ∉ text := denotes.not_mem base rfl
  rw [Numeral.read?_of_ne_nil radix denotes.1] at read
  have reached := accumulate_eq several (Nat.zero_le _) read
  cases text with
  | nil => exact absurd rfl denotes.1
  | cons first rest =>
    rw [List.mem_cons, not_or] at unsigned
    refine ⟨?_, reached⟩
    rw [← reached]
    unfold signed
    split
    · next same => cases same
    · next same =>
      cases same
      exact absurd rfl unsigned.1
    · next same =>
      cases same
      exact absurd rfl unsigned.1
    · rfl

/-- What is read as an address is digits, with a plus sign in front of them or without one. -/
theorem exists_of_signed (read : signed radix text = .ok address) :
    ∃ digits n, (text = digits ∨ text = '+' :: digits) ∧
      Numeral.read? radix digits = some n := by
  unfold signed at read
  split at read
  · cases read
  · cases read
  · next digits bare =>
    obtain ⟨n, later⟩ := exists_of_accumulate read
    refine ⟨digits, n, .inr rfl, ?_⟩
    exact (Numeral.read?_of_ne_nil radix fun none => bare (none ▸ rfl)).trans later
  · next nonempty _ _ =>
    obtain ⟨n, later⟩ := exists_of_accumulate read
    refine ⟨text, n, .inl rfl, ?_⟩
    exact (Numeral.read?_of_ne_nil radix nonempty).trans later

/-- Puts a plus sign in front of the digits of a number, behind its mark if it has one. -/
def withPlus : List Char → List Char
  | '0' :: 'x' :: digits => '0' :: 'x' :: '+' :: digits
  | '0' :: 'X' :: digits => '0' :: 'X' :: '+' :: digits
  | digits => '+' :: digits

/-- A number is read as an address alike with a plus sign in front of its digits and without one. -/
theorem read_eq (number : IsNumber text n) :
    read text = ofNumber n ∧ read (withPlus text) = ofNumber n := by
  cases number with
  | hexadecimal marked digits =>
    have read := (Numeral.read?_eq_some_iff (by decide)).mpr digits
    rcases marked with rfl | rfl
    · exact signed_eq (by decide) (by decide) read
    · exact signed_eq (by decide) (by decide) read
  | decimal digits =>
    have digits := (Numeral.read?_eq_some_iff (by decide)).mpr digits
    have both := signed_eq (by decide) (by decide) digits
    -- No decimal number has a mark, as `x` is no decimal digit.
    refine ⟨?_, ?_⟩
    · rw [← both.1]
      unfold read
      split
      · cases digits
      · cases digits
      · rfl
    · rw [← both.2]
      unfold withPlus
      split
      · cases digits
      · cases digits
      · rfl

/-- What is read as an address is a number, with a plus sign in front of its digits or without
one. -/
theorem exists_of_read (found : read text = .ok address) :
    ∃ plain n, (text = plain ∨ text = withPlus plain) ∧ IsNumber plain n := by
  unfold read at found
  split at found
  · next digits =>
    obtain ⟨plain, n, same, own⟩ := exists_of_signed found
    have number : IsNumber ('0' :: 'x' :: plain) n :=
      .hexadecimal (.inl rfl) ((Numeral.read?_eq_some_iff (by decide)).mp own)
    refine ⟨'0' :: 'x' :: plain, n, ?_, number⟩
    exact same.imp (congrArg ('0' :: 'x' :: ·)) (congrArg ('0' :: 'x' :: ·))
  · next digits =>
    obtain ⟨plain, n, same, own⟩ := exists_of_signed found
    have number : IsNumber ('0' :: 'X' :: plain) n :=
      .hexadecimal (.inr rfl) ((Numeral.read?_eq_some_iff (by decide)).mp own)
    refine ⟨'0' :: 'X' :: plain, n, ?_, number⟩
    exact same.imp (congrArg ('0' :: 'X' :: ·)) (congrArg ('0' :: 'X' :: ·))
  · obtain ⟨plain, n, same, own⟩ := exists_of_signed found
    refine ⟨plain, n, ?_, .decimal ((Numeral.read?_eq_some_iff (by decide)).mp own)⟩
    refine same.imp_right fun sign => ?_
    rw [sign]
    unfold withPlus
    split
    · cases own
    · cases own
    · rfl

/-- A text is read alike as the number of an operand and as an address. A number of 16 bits is the
address of the same value, and a larger one is too large for an address. A text that is no number is
an address just if it is a number of 16 bits with one plus sign put in front of its digits, and then
the sign does not change the value. -/
structure Agrees (text : List Char) : Prop where
  accepted : ∀ n value, readNumber? text = some n → halfWord n = .ok value → read text = .ok value
  refused : ∀ n reason, readNumber? text = some n → halfWord n = .error reason →
    read text = .error .tooLarge
  signed : ∀ value, readNumber? text = none → (read text = .ok value ↔
    ∃ plain n, text = withPlus plain ∧ readNumber? plain = some n ∧ halfWord n = .ok value)

/-- The command line and the source have one notation for numbers, but for a plus sign. -/
theorem agrees_readNumber (text : List Char) : Agrees text where
  accepted := by
    intro n value number fits
    rw [(read_eq (readNumber?_eq_some_iff.mp number)).1]
    exact ofNumber_eq_ok_iff.mpr fits
  refused := by
    intro n reason number large
    rw [(read_eq (readNumber?_eq_some_iff.mp number)).1, ofNumber, large]
    rfl
  signed := by
    intro value unread
    constructor
    · intro found
      obtain ⟨plain, n, same, number⟩ := exists_of_read found
      have numeral := readNumber?_eq_some_iff.mpr number
      rcases same with rfl | rfl
      · rw [numeral] at unread
        cases unread
      · refine ⟨plain, n, rfl, numeral, ?_⟩
        rw [(read_eq number).2] at found
        exact ofNumber_eq_ok_iff.mp found
    · rintro ⟨plain, n, rfl, numeral, fits⟩
      rw [(read_eq (readNumber?_eq_some_iff.mp numeral)).2]
      exact ofNumber_eq_ok_iff.mpr fits

/-- The sign stands behind the mark, and only there. -/
example : readNumber? ['0', 'x', '+', '1', 'F'] = none ∧ read ['0', 'x', '+', '1', 'F'] = .ok 31 ∧
    read ['+', '0', 'x', '1', 'F'] = .error .invalidDigit := by
  decide

end AddressArgument

end Tetrad
