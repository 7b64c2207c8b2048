import Tetrad.Proofs.Source.Fields
import Tetrad.Table

namespace Tetrad

open Source

variable {c other : Char}

theorem isAlphanum_iff : c.isAlphanum = true ↔ 48 ≤ c.toNat ∧ c.toNat ≤ 57 ∨
    65 ≤ c.toNat ∧ c.toNat ≤ 90 ∨ 97 ≤ c.toNat ∧ c.toNat ≤ 122 := by
  have upper : c.isUpper = true ↔ 65 ≤ c.toNat ∧ c.toNat ≤ 90 := decide_eq_true_iff
  have lower : c.isLower = true ↔ 97 ≤ c.toNat ∧ c.toNat ≤ 122 :=
    Bool.and_eq_true_iff.trans (and_congr decide_eq_true_iff decide_eq_true_iff)
  have digit : c.isDigit = true ↔ 48 ≤ c.toNat ∧ c.toNat ≤ 57 :=
    Bool.and_eq_true_iff.trans (and_congr decide_eq_true_iff decide_eq_true_iff)
  have solid : c.isAlphanum = (c.isUpper || c.isLower || c.isDigit) := rfl
  rw [solid, Bool.or_eq_true, Bool.or_eq_true, upper, lower, digit]
  omega

theorem isSeparator_of_isAlphanum (solid : c.isAlphanum = true) : isSeparator c = false := by
  have comma : c ≠ ',' := by
    rintro rfl
    cases solid
  rw [isAlphanum_iff] at solid
  simp [isSeparator, isBlank, blankRanges, comma]
  omega

theorem toNat_toLower (c : Char) :
    c.toLower.toNat = if 65 ≤ c.toNat ∧ c.toNat ≤ 90 then c.toNat + 32 else c.toNat := by
  have range : c.val ≥ 'A'.val ∧ c.val ≤ 'Z'.val ↔ 65 ≤ c.toNat ∧ c.toNat ≤ 90 := Iff.rfl
  unfold Char.toLower
  by_cases upper : c.val ≥ 'A'.val ∧ c.val ≤ 'Z'.val
  · rw [dif_pos upper, if_pos (range.mp upper)]
    have high : c.val.toNat ≤ 90 := upper.2
    have room : c.val.toNat + 32 < 2 ^ 32 := by omega
    exact (UInt32.toNat_add c.val 32).trans (Nat.mod_eq_of_lt room)
  · rw [dif_neg upper, if_neg (mt range.mpr upper)]

/-- Characters that differ in case at most are one character or both letters. -/
theorem eq_or_isAlphanum (same : c.toLower = other.toLower) :
    c = other ∨ c.isAlphanum = true ∧ other.isAlphanum = true := by
  have codes := congrArg Char.toNat same
  rw [toNat_toLower, toNat_toLower] at codes
  rw [isAlphanum_iff, isAlphanum_iff, ← Char.toNat_inj]
  split at codes <;> split at codes <;> omega

theorem isAlphanum_of_toLower (solid : c.toLower.isAlphanum = true) : c.isAlphanum = true := by
  rw [isAlphanum_iff, toNat_toLower] at solid
  rw [isAlphanum_iff]
  split at solid <;> omega

section

variable {word spelling : List Char}

theorem uncommented_of_map_toLower (same : spelling.map Char.toLower = word.map Char.toLower)
    (free : Uncommented word) : Uncommented spelling := by
  have slash : ∀ {c : Char}, c.toLower = '/' ↔ c = '/' := by
    intro c
    constructor
    · intro lower
      have case_of_slash : c.toLower = Char.toLower '/' := lower
      rcases eq_or_isAlphanum case_of_slash with same | ⟨-, impossible⟩
      · exact same
      · cases impossible
    · rintro rfl
      rfl
  have lowered : ∀ text : List Char, Uncommented text ↔ Uncommented (text.map Char.toLower) := by
    intro text
    simp only [Uncommented, List.isChain_map, slash]
  rw [lowered, same, ← lowered]
  exact free

theorem head?_ne_of_map_toLower {mark : Char} (other : mark.isAlphanum = false)
    (same : spelling.map Char.toLower = word.map Char.toLower) (plain : word.head? ≠ some mark) :
    spelling.head? ≠ some mark := by
  intro starts
  obtain ⟨rest, rfl⟩ := List.head?_eq_some_iff.mp starts
  obtain ⟨twin, others, rfl, lower, -⟩ := List.map_eq_cons_iff.mp same.symm
  rcases eq_or_isAlphanum lower with rfl | ⟨-, solid⟩
  · exact plain rfl
  · rw [solid] at other
    cases other

theorem isWord_of_map_toLower (same : spelling.map Char.toLower = word.map Char.toLower)
    (own : IsWord word) : IsWord spelling := by
  refine ⟨?_, ?_, uncommented_of_map_toLower same own.uncommented⟩
  · rintro rfl
    exact own.nonempty (List.map_eq_nil_iff.mp same.symm)
  · intro c member
    have lowered : c.toLower ∈ word.map Char.toLower := by
      rw [← same]
      exact List.mem_map_of_mem member
    obtain ⟨twin, inWord, differ⟩ := List.mem_map.mp lowered
    rcases eq_or_isAlphanum differ.symm with rfl | ⟨solid, -⟩
    · exact own.plain c inWord
    · exact isSeparator_of_isAlphanum solid

end

end Tetrad
