import Mathlib.Data.Nat.Digits.Defs
import Tetrad.Operand.Shape
import Tetrad.Proofs.Failure
import Tetrad.Proofs.Source.Letters

namespace Tetrad

namespace Numeral

variable {radix digit n : Nat} {c : Char} {text : List Char}

/-- A character stands for a digit: it is the one that writes it, a letter in either case. -/
def StandsFor (radix : Nat) (c : Char) (digit : Nat) : Prop :=
  digit < radix ∧ c.toLower = Nat.digitChar digit

/-- One or more characters denote the number that has their digits, the most significant one
first. -/
def Denotes (radix : Nat) (text : List Char) (n : Nat) : Prop :=
  text ≠ [] ∧ ∃ digits, List.Forall₂ (StandsFor radix) text digits ∧
    n = Nat.ofDigits radix digits.reverse

theorem standsFor_iff (base : radix ≤ 16) : StandsFor radix c digit ↔
    digit < radix ∧ (if 65 ≤ c.toNat ∧ c.toNat ≤ 90 then c.toNat + 32 else c.toNat) =
      if digit < 10 then 48 + digit else 87 + digit := by
  have written : ∀ digit < 16, (Nat.digitChar digit).toNat =
      if digit < 10 then 48 + digit else 87 + digit := by decide
  refine and_congr_right fun small => ?_
  rw [← Char.toNat_inj, toNat_toLower, written digit (by omega)]

theorem digitValue?_eq_some_iff (base : radix ≤ 16) :
    digitValue? radix c = some digit ↔ StandsFor radix c digit := by
  have decimal : '0' ≤ c ∧ c ≤ '9' ↔ 48 ≤ c.toNat ∧ c.toNat ≤ 57 := Iff.rfl
  have lower : 'a' ≤ c ∧ c ≤ 'f' ↔ 97 ≤ c.toNat ∧ c.toNat ≤ 102 := Iff.rfl
  have upper : 'A' ≤ c ∧ c ≤ 'F' ↔ 65 ≤ c.toNat ∧ c.toNat ≤ 70 := Iff.rfl
  -- Both sides become conditions on the code of the character.
  rw [standsFor_iff base]
  simp only [digitValue?, decimal, lower, upper, Option.filter_eq_some_iff, decide_eq_true_eq]
  have zero : '0'.toNat = 48 := rfl
  have small : 'a'.toNat = 97 := rfl
  have capital : 'A'.toNat = 65 := rfl
  rw [zero, small, capital]
  split_ifs <;> simp <;> omega

theorem StandsFor.isDigit (stands : StandsFor 10 c digit) : c.isDigit = true := by
  obtain ⟨small, code⟩ := (standsFor_iff (by decide)).mp stands
  have zero : '0'.toNat = 48 := rfl
  have nine : '9'.toNat = 57 := rfl
  rw [Char.isDigit_iff_toNat, zero, nine]
  split_ifs at code <;> omega

theorem StandsFor.isAlphanum (base : radix ≤ 16) (stands : StandsFor radix c digit) :
    c.isAlphanum = true := by
  have solid : ∀ digit < 16, (Nat.digitChar digit).isAlphanum = true := by decide
  obtain ⟨small, same⟩ := stands
  refine isAlphanum_of_toLower ?_
  rw [same]
  exact solid digit (by omega)

theorem Denotes.not_mem (base : radix ≤ 16) (denotes : Denotes radix text n)
    (other : c.isAlphanum = false) : c ∉ text := by
  intro member
  obtain ⟨-, digits, stand, -⟩ := denotes
  have turned : List.Forall₂ (fun digit c => StandsFor radix c digit) digits text := stand.flip
  obtain ⟨digit, -, own⟩ := exists_of_mem_forall₂ turned member
  rw [own.isAlphanum base] at other
  cases other

/-- Reading adds digits to a value from left to right, which is the number that they denote. -/
theorem foldlM_eq_some_iff (base : radix ≤ 16) {start : Nat} :
    text.foldlM (fun value c => (digitValue? radix c).map (value * radix + ·)) start = some n ↔
      ∃ digits, List.Forall₂ (StandsFor radix) text digits ∧
        n = digits.foldl (fun value digit => value * radix + digit) start := by
  induction text generalizing start with
  | nil => simp [eq_comm]
  | cons first rest ih =>
    rw [List.foldlM_cons]
    constructor
    · intro found
      obtain ⟨next, own, later⟩ := Option.bind_eq_some_iff.mp found
      obtain ⟨digit, read, rfl⟩ := Option.map_eq_some_iff.mp own
      obtain ⟨digits, stand, rfl⟩ := ih.mp later
      exact ⟨digit :: digits, .cons ((digitValue?_eq_some_iff base).mp read) stand, rfl⟩
    · rintro ⟨digits, stand, rfl⟩
      cases stand with
      | @cons _ digit _ digits own later =>
        have read := (digitValue?_eq_some_iff base).mpr own
        rw [read, Option.map_some, Option.bind_eq_bind, Option.bind_some]
        exact ih.mpr ⟨digits, later, rfl⟩

theorem read?_eq_some_iff (base : radix ≤ 16) :
    read? radix text = some n ↔ Denotes radix text n := by
  have value : ∀ digits : List Nat, Nat.ofDigits radix digits.reverse =
      digits.foldl (fun value digit => value * radix + digit) 0 := by
    intro digits
    rw [Nat.ofDigits_eq_foldr, List.foldr_reverse]
    congr 1
    funext value digit
    simp [Nat.mul_comm, Nat.add_comm]
  unfold Denotes
  simp only [value]
  cases text with
  | nil => simp [read?]
  | cons first rest =>
    rw [read?_of_ne_nil radix (List.cons_ne_nil first rest), foldlM_eq_some_iff base]
    simp

end Numeral

/-- The text of a number: decimal digits, or hexadecimal ones after `0x` or `0X`. -/
inductive IsNumber : List Char → Nat → Prop
  | decimal {text : List Char} {n : Nat} (digits : Numeral.Denotes 10 text n) : IsNumber text n
  | hexadecimal {mark : Char} {text : List Char} {n : Nat} (marked : mark = 'x' ∨ mark = 'X')
      (digits : Numeral.Denotes 16 text n) : IsNumber ('0' :: mark :: text) n

variable {text : List Char} {n : Nat} {c mark : Char}

theorem readNumber?_eq_some_iff : readNumber? text = some n ↔ IsNumber text n := by
  have ten : ∀ {text}, Numeral.read? 10 text = some n ↔ Numeral.Denotes 10 text n :=
    Numeral.read?_eq_some_iff (by decide)
  have sixteen : ∀ {text}, Numeral.read? 16 text = some n ↔ Numeral.Denotes 16 text n :=
    Numeral.read?_eq_some_iff (by decide)
  constructor
  · intro found
    unfold readNumber? at found
    split at found
    · exact .hexadecimal (.inl rfl) (sixteen.mp found)
    · exact .hexadecimal (.inr rfl) (sixteen.mp found)
    · exact .decimal (ten.mp found)
  · intro number
    cases number with
    | hexadecimal marked digits =>
      rcases marked with rfl | rfl
      · exact sixteen.mpr digits
      · exact sixteen.mpr digits
    | decimal digits =>
      -- No decimal number starts like a hexadecimal one, as `x` is no decimal digit.
      have read := ten.mpr digits
      unfold readNumber?
      split
      · cases read
      · cases read
      · exact read

theorem IsNumber.exists_first (number : IsNumber text n) :
    ∃ first rest, text = first :: rest ∧ first.isDigit = true := by
  cases number with
  | hexadecimal => exact ⟨_, _, rfl, rfl⟩
  | decimal digits =>
    obtain ⟨nonempty, digits, stand, -⟩ := digits
    cases stand with
    | nil => exact absurd rfl nonempty
    | cons own _ => exact ⟨_, _, rfl, own.isDigit⟩

theorem IsNumber.not_mem (number : IsNumber text n) (other : c.isAlphanum = false) : c ∉ text := by
  cases number with
  | decimal digits => exact digits.not_mem (by decide) other
  | @hexadecimal mark _ _ marked digits =>
    have behind := digits.not_mem (by decide) other
    rw [List.mem_cons, List.mem_cons, not_or, not_or]
    refine ⟨?_, ?_, behind⟩
    · rintro rfl
      cases other
    · rintro rfl
      rcases marked with rfl | rfl <;> cases other

theorem readNumber?_eq_none (shows : c ∈ text) (other : c.isAlphanum = false) :
    readNumber? text = none := by
  refine Option.eq_none_iff_forall_ne_some.mpr ?_
  intro value found
  exact (readNumber?_eq_some_iff.mp found).not_mem other shows

theorem isDigit_of_mem_digits {n : Nat} (member : c ∈ Numeral.digits 10 n) : c.isDigit = true :=
  Nat.isDigit_of_mem_toDigits (by decide) (by decide) member

theorem isAlphanum_of_mem_digits {n : Nat} (member : c ∈ Numeral.digits 10 n) :
    c.isAlphanum = true := by
  rw [Char.isAlphanum, isDigit_of_mem_digits member, Bool.or_true]

theorem readNumber?_digits (n : Nat) : readNumber? (Numeral.digits 10 n) = some n := by
  unfold readNumber?
  split
  · next rest same =>
    have impossible := isDigit_of_mem_digits (c := 'x') (n := n) (by simp [same])
    cases impossible
  · next rest same =>
    have impossible := isDigit_of_mem_digits (c := 'X') (n := n) (by simp [same])
    cases impossible
  · exact Numeral.read?_digits (by decide) (by decide) n

/-- The name of a register without a sigil: a name of its own in any case of its letters, or `r` and
a decimal number. -/
inductive IsBareRegister : List Char → RegisterName → Prop
  | zero {text : List Char} (spelled : text.map Char.toLower = ['z', 'e', 'r', 'o']) :
      IsBareRegister text (.named .zero)
  | sp {text : List Char} (spelled : text.map Char.toLower = ['s', 'p']) :
      IsBareRegister text (.named .sp)
  | cmp {text : List Char} (spelled : text.map Char.toLower = ['c', 'm', 'p']) :
      IsBareRegister text (.named .cmp)
  | numbered {mark : Char} {text : List Char} {n : Nat} (marked : mark = 'r' ∨ mark = 'R')
      (digits : Numeral.Denotes 10 text n) : IsBareRegister (mark :: text) (.numbered n)

/-- The name of a register, with or without one sigil in front. -/
inductive IsRegister : List Char → RegisterName → Prop
  | bare {text : List Char} {name : RegisterName} (named : IsBareRegister text name) :
      IsRegister text name
  | sigil {text : List Char} {name : RegisterName} (named : IsBareRegister text name) :
      IsRegister ('$' :: text) name

theorem not_mem_of_map_toLower {lowered : List Char} (spelled : text.map Char.toLower = lowered)
    (solid : lowered.all Char.isAlphanum = true) (other : c.isAlphanum = false) : c ∉ text := by
  intro member
  have below : c.toLower ∈ lowered := spelled ▸ List.mem_map_of_mem member
  rw [isAlphanum_of_toLower (List.all_eq_true.mp solid _ below)] at other
  cases other

theorem IsBareRegister.not_mem {name : RegisterName} (named : IsBareRegister text name)
    (other : c.isAlphanum = false) : c ∉ text := by
  cases named with
  | zero spelled | sp spelled | cmp spelled => exact not_mem_of_map_toLower spelled rfl other
  | numbered marked digits =>
    rw [List.mem_cons, not_or]
    refine ⟨?_, digits.not_mem (by decide) other⟩
    rintro rfl
    rcases marked with rfl | rfl <;> cases other

theorem IsRegister.not_mem {name : RegisterName} (named : IsRegister text name)
    (other : c.isAlphanum = false) (plain : c ≠ '$') : c ∉ text := by
  cases named with
  | bare named => exact named.not_mem other
  | sigil named =>
    rw [List.mem_cons, not_or]
    exact ⟨plain, named.not_mem other⟩

namespace RegisterName

variable {name : RegisterName}

theorem isBare_of_ofName? {register : Register} (own : Register.ofName? text = some register) :
    IsBareRegister text (.named register) := by
  unfold Register.ofName? at own
  split at own
  · next spelled =>
    cases own
    exact .zero spelled
  · next spelled =>
    cases own
    exact .sp spelled
  · next spelled =>
    cases own
    exact .cmp spelled
  · cases own

theorem readBare?_eq_some_iff : readBare? text = some name ↔ IsBareRegister text name := by
  have ten : ∀ {text n}, Numeral.read? 10 text = some n ↔ Numeral.Denotes 10 text n :=
    Numeral.read?_eq_some_iff (by decide)
  constructor
  · intro found
    unfold readBare? at found
    split at found
    · next register own =>
      cases found
      exact isBare_of_ofName? own
    · obtain ⟨number, read, rfl⟩ := Option.map_eq_some_iff.mp found
      exact .numbered (.inl rfl) (ten.mp read)
    · obtain ⟨number, read, rfl⟩ := Option.map_eq_some_iff.mp found
      exact .numbered (.inr rfl) (ten.mp read)
    · cases found
  · intro named
    cases named with
    | zero spelled | sp spelled | cmp spelled => simp only [readBare?, Register.ofName?, spelled]
    | numbered marked digits =>
      have read := ten.mpr digits
      rcases marked with rfl | rfl
      · simp [readBare?, Register.ofName?, read]
      · simp [readBare?, Register.ofName?, read]

theorem read?_eq_some_iff : read? text = some name ↔ IsRegister text name := by
  constructor
  · intro found
    unfold read? at found
    split at found
    · exact .sigil (readBare?_eq_some_iff.mp found)
    · exact .bare (readBare?_eq_some_iff.mp found)
  · intro register
    cases register with
    | sigil named => exact readBare?_eq_some_iff.mpr named
    | bare named =>
      unfold read?
      split
      · -- A sigil is no part of a bare name.
        exact absurd List.mem_cons_self (named.not_mem rfl)
      · exact readBare?_eq_some_iff.mpr named

/-- The name that the text of a register says. -/
def ofRegister (register : Register) : RegisterName :=
  if register.isGeneral then numbered register.index.val else named register

theorem read?_text (register : Register) :
    read? register.text.toList = some (ofRegister register) := by
  have all : ∀ index : Fin 16,
      read? (Register.text ⟨index⟩).toList = some (ofRegister ⟨index⟩) := by decide
  exact all register.index

end RegisterName

/-- The text of a register is its sigil and digits or letters. -/
theorem Register.text_eq_sigil (register : Register) : ∃ name,
    register.text.toList = '$' :: name ∧ ∀ c ∈ name, c.isAlphanum = true := by
  have all : ∀ index : Fin 16, (Register.text ⟨index⟩).toList.head? = some '$' ∧
      (Register.text ⟨index⟩).toList.tail.all Char.isAlphanum = true := by decide
  obtain ⟨sigil, solid⟩ := all register.index
  obtain ⟨name, same⟩ := List.head?_eq_some_iff.mp sigil
  rw [same] at solid
  exact ⟨name, same, List.all_eq_true.mp solid⟩

theorem after?_eq_some_iff {rest : List Char} :
    after? mark text = some rest ↔ text = mark :: rest := by
  cases text with
  | nil => simp [after?]
  | cons first others => simp [after?]

theorem enclosed?_eq_none {closing : Char} (starts : text.head? ≠ some mark) :
    enclosed? mark closing text = none := by
  cases text with
  | nil => rfl
  | cons first rest => exact if_neg fun ⟨same, _⟩ => starts (congrArg some same)

theorem enclosed?_append (opening closing : Char) (inner : List Char) :
    enclosed? opening closing (opening :: (inner ++ [closing])) = some inner := by
  simp [enclosed?]

theorem eq_of_enclosed? {opening closing : Char} {inner : List Char}
    (found : enclosed? opening closing text = some inner) :
    text = opening :: (inner ++ [closing]) := by
  cases text with
  | nil => cases found
  | cons first rest =>
    rw [enclosed?] at found
    split at found
    · next ends =>
      obtain ⟨rfl, last⟩ := ends
      cases found
      obtain ⟨init, rfl⟩ := List.getLast?_eq_some_iff.mp last
      rw [List.dropLast_concat]
    · cases found

theorem splitFirst?_append {before : List Char} (absent : mark ∉ before) (after : List Char) :
    splitFirst? mark (before ++ mark :: after) = some (before, after) := by
  induction before with
  | nil => exact if_pos rfl
  | cons first rest ih =>
    rw [List.mem_cons, not_or] at absent
    rw [List.cons_append, splitFirst?, if_neg (Ne.symm absent.1), ih absent.2]
    rfl

theorem eq_of_splitFirst? {before after : List Char}
    (found : splitFirst? mark text = some (before, after)) : text = before ++ mark :: after := by
  induction text generalizing before with
  | nil => cases found
  | cons first rest ih =>
    rw [splitFirst?] at found
    split at found
    · next same =>
      cases found
      rw [same, List.nil_append]
    · obtain ⟨⟨own, others⟩, later, same⟩ := Option.map_eq_some_iff.mp found
      cases same
      rw [ih later, List.cons_append]

theorem readLabel?_eq_some_iff {name : List Char} :
    readLabel? text = some name ↔ text = '.' :: name ∧ isLabelName name = true := by
  rw [readLabel?, Option.filter_eq_some_iff, after?_eq_some_iff]

theorem readLabel?_dot {name : List Char} (valid : isLabelName name = true) :
    readLabel? ('.' :: name) = some name := readLabel?_eq_some_iff.mpr ⟨rfl, valid⟩

theorem isLabelName_chars {name : List Char} (valid : isLabelName name = true) :
    ∀ c ∈ name, c.isAlphanum = true ∨ c = '_' := by
  cases name with
  | nil => cases valid
  | cons first rest =>
    simp only [isLabelName, Bool.and_eq_true, Bool.or_eq_true, beq_iff_eq, List.all_eq_true]
      at valid
    obtain ⟨start, later⟩ := valid
    refine List.forall_mem_cons.mpr ⟨start.imp_left fun alpha => ?_, later⟩
    rw [Char.isAlphanum, alpha, Bool.true_or]

end Tetrad
