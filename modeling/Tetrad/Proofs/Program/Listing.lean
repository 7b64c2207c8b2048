import Tetrad.Proofs.Program.Disassembly

namespace Tetrad

namespace ListingLine

/-- The bytes of a line: those of its word, or the ones after the last whole word. -/
def bytes : ListingLine → List UInt8
  | .instruction _ own _ => wordBytes own
  | .word _ own => wordBytes own
  | .trailing _ remainder => remainder

/-- The word of a line that has a whole one. -/
def word? : ListingLine → Option UInt32
  | .instruction _ own _ => some own
  | .word _ own => some own
  | .trailing _ _ => none

end ListingLine

variable {table : Table} {address : UInt16} {word : UInt32} {rest rom : List UInt8}
  {lines : List ListingLine}

theorem wordBytes_wordOfBytes (a b c d : UInt8) :
    wordBytes (wordOfBytes a b c d) = [a, b, c, d] := by
  have := a.toNat_lt
  have := b.toNat_lt
  have := c.toNat_lt
  have := d.toNat_lt
  have whole : (wordOfBytes a b c d).toNat =
      ((a.toNat * 0x100 + b.toNat) * 0x100 + c.toNat) * 0x100 + d.toNat :=
    UInt32.toNat_ofNat_of_lt' (by show _ < 4294967296; omega)
  simp only [wordBytes, wordByte, whole, List.cons.injEq, and_true, ← UInt8.toNat_inj,
    UInt8.toNat_ofNat']
  omega

namespace Listing

@[simp] theorem bytes_lineOfWord (table : Table) (address : UInt16) (word : UInt32) :
    (lineOfWord table address word).bytes = wordBytes word := by
  unfold lineOfWord
  split <;> rfl

@[simp] theorem word?_lineOfWord (table : Table) (address : UInt16) (word : UInt32) :
    (lineOfWord table address word).word? = some word := by
  unfold lineOfWord
  split <;> rfl

@[simp] theorem address_lineOfWord (table : Table) (address : UInt16) (word : UInt32) :
    (lineOfWord table address word).address = address := by
  unfold lineOfWord
  split <;> rfl

theorem instruction?_lineOfWord_eq_some_iff {instruction : Instruction} :
    (lineOfWord table address word).instruction? = some instruction ↔
      table.decode word = .ok instruction := by
  unfold lineOfWord
  cases table.decode word <;> simp [ListingLine.instruction?]

/-- The lines list the bytes from an address on. Their bytes, one line after the other, are all
bytes; there is a line for every four of them, and its address is that of its first byte, counted
around the end of the address space. Only the last line may have no whole word, and it has none just
if the bytes are no whole number of words. Every other line has an instruction just if its word
decodes, and then this one. -/
structure Lossless (table : Table) (address : UInt16) (rom : List UInt8)
    (lines : List ListingLine) : Prop where
  bytes : lines.flatMap ListingLine.bytes = rom
  count : lines.length = (rom.length + 3) / 4
  addresses : ∀ place line, lines[place]? = some line →
    line.address.toNat = (address.toNat + 4 * place) % 65536
  trailing : ∀ place line, lines[place]? = some line → line.word? = none →
    place + 1 = lines.length ∧ 1 ≤ line.bytes.length ∧ line.bytes.length ≤ 3
  ends : (∃ line ∈ lines, line.word? = none) ↔ rom.length % 4 ≠ 0
  decodes : ∀ line ∈ lines, ∀ word, line.word? = some word → ∀ instruction,
    line.instruction? = some instruction ↔ table.decode word = .ok instruction

theorem Lossless.nil : Lossless table address [] [] where
  bytes := rfl
  count := rfl
  addresses := nofun
  trailing := nofun
  ends := by simp
  decodes := nofun

theorem Lossless.short (some_byte : rom ≠ []) (few : rom.length < 4) :
    Lossless table address rom [.trailing address rom] := by
  have bound := address.toNat_lt
  have positive := List.length_pos_iff.mpr some_byte
  have only : ∀ {place line}, [ListingLine.trailing address rom][place]? = some line →
      place = 0 ∧ line = .trailing address rom := by
    intro place line listed
    obtain ⟨inside, rfl⟩ := List.getElem?_eq_some_iff.mp listed
    obtain rfl : place = 0 := Nat.lt_one_iff.mp inside
    exact ⟨rfl, rfl⟩
  refine ⟨List.append_nil _, ?_, ?_, ?_, ?_, ?_⟩
  · rw [List.length_singleton]
    omega
  · intro place line listed
    obtain ⟨rfl, rfl⟩ := only listed
    exact (Nat.mod_eq_of_lt bound).symm
  · intro place line listed none
    obtain ⟨rfl, rfl⟩ := only listed
    exact ⟨rfl, positive, Nat.le_of_lt_succ few⟩
  · refine iff_of_true ⟨_, List.mem_singleton_self _, rfl⟩ ?_
    omega
  · intro line member word has
    cases List.mem_singleton.mp member
    cases has

/-- A word goes in front of what is listed behind it. -/
theorem Lossless.cons (later : Lossless table (address + 4) rest lines) (word : UInt32) :
    Lossless table address (wordBytes word ++ rest) (lineOfWord table address word :: lines) := by
  have bound := address.toNat_lt
  have length : (wordBytes word ++ rest).length = 4 + rest.length := by
    rw [List.length_append]
    rfl
  refine ⟨?_, ?_, ?_, ?_, ?_, ?_⟩
  · rw [List.flatMap_cons, bytes_lineOfWord, later.bytes]
  · rw [length, List.length_cons, later.count]
    omega
  · intro place line listed
    cases place with
    | zero =>
      cases listed
      rw [address_lineOfWord]
      exact (Nat.mod_eq_of_lt bound).symm
    | succ place =>
      have further := UInt16.toNat_add address 4
      rw [later.addresses place line listed, further, show (4 : UInt16).toNat = 4 from rfl]
      omega
  · intro place line listed none
    cases place with
    | zero =>
      cases listed
      rw [word?_lineOfWord] at none
      cases none
    | succ place =>
      obtain ⟨last, own⟩ := later.trailing place line listed none
      exact ⟨congrArg (· + 1) last, own⟩
  · have ends := later.ends
    simp only [List.mem_cons, exists_eq_or_imp, word?_lineOfWord, reduceCtorEq, false_or, ends,
      length]
    omega
  · intro line member
    rcases List.mem_cons.mp member with rfl | member
    · intro own has
      rw [word?_lineOfWord] at has
      cases has
      exact fun instruction => instruction?_lineOfWord_eq_some_iff
    · exact later.decodes line member

theorem lossless_fromAddress (table : Table) (address : UInt16) (rom : List UInt8) :
    Lossless table address rom (fromAddress table address rom) := by
  fun_induction fromAddress table address rom with
  | case1 => exact .nil
  | case2 address a b c d rest ih =>
    have lossless := ih.cons (wordOfBytes a b c d)
    rwa [wordBytes_wordOfBytes] at lossless
  | case3 address rom some_byte few =>
    -- four bytes and more have been met in the case before
    refine .short some_byte (Nat.lt_of_not_le fun many => ?_)
    match rom, many with
    | a :: b :: c :: d :: rest, _ => exact few a b c d rest rfl

/-- Whatever the bytes of a program are, nothing is lost in their listing. -/
theorem lossless_ofRom (table : Table) (rom : List UInt8) :
    Lossless table 0x200 rom (ofRom table rom) :=
  lossless_fromAddress table loadAddress rom

end Listing

end Tetrad
