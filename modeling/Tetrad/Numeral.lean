namespace Tetrad.Numeral

/-- The value of a digit, letters in either case standing for ten and up. -/
def digitValue? (radix : Nat) (c : Char) : Option Nat :=
  let value :=
    if '0' ≤ c ∧ c ≤ '9' then some (c.toNat - '0'.toNat)
    else if 'a' ≤ c ∧ c ≤ 'f' then some (c.toNat - 'a'.toNat + 10)
    else if 'A' ≤ c ∧ c ≤ 'F' then some (c.toNat - 'A'.toNat + 10)
    else none
  value.filter (· < radix)

/-- The number that a nonempty run of digits denotes, most significant digit first. -/
def read? (radix : Nat) : List Char → Option Nat
  | [] => none
  | digits => digits.foldlM (fun value c => (digitValue? radix c).map (value * radix + ·)) 0

/-- The digits of a number, without leading zeros. -/
def digits (radix n : Nat) : List Char := Nat.toDigits radix n

def decimal (n : Nat) : String := String.ofList (digits 10 n)

/-- A numeral of at least the given number of digits. -/
def padded (radix width n : Nat) : String :=
  let written := digits radix n
  String.ofList (List.replicate (width - written.length) '0' ++ written)

/-- A hexadecimal numeral of at least the given number of digits, after `0x`. -/
def hex (width n : Nat) : String := "0x" ++ padded 16 width n

theorem digitValue?_digitChar {radix digit : Nat} (base : radix ≤ 16) (small : digit < radix) :
    digitValue? radix (Nat.digitChar digit) = some digit := by
  have all : ∀ radix ≤ 16, ∀ digit < radix,
      digitValue? radix (Nat.digitChar digit) = some digit := by decide
  exact all radix base digit small

theorem read?_of_ne_nil (radix : Nat) {digits : List Char} (nonempty : digits ≠ []) :
    read? radix digits =
      digits.foldlM (fun value c => (digitValue? radix c).map (value * radix + ·)) 0 := by
  cases digits with
  | nil => exact absurd rfl nonempty
  | cons c rest => rfl

theorem read?_digits {radix : Nat} (several : 1 < radix) (base : radix ≤ 16) (n : Nat) :
    read? radix (digits radix n) = some n := by
  rw [digits, read?_of_ne_nil radix Nat.toDigits_ne_nil]
  induction n using Nat.strongRecOn with
  | ind n ih =>
    by_cases small : n < radix
    · rw [Nat.toDigits_of_lt_base small]
      simp [digitValue?_digitChar base small]
    · have fewer : n / radix < n := Nat.div_lt_self (by omega) several
      rw [Nat.toDigits_of_base_le several (by omega), List.foldlM_append, ih _ fewer]
      simp [digitValue?_digitChar base (Nat.mod_lt n (by omega)), Nat.div_add_mod']

end Tetrad.Numeral
