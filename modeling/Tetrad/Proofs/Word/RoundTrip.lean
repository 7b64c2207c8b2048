import Tetrad.Proofs.Word.Operands

/-!
# Encoding and decoding

Decoding undoes encoding up to what the fields of a scaled operand can hold. It goes through the
fields that a word holds: encoding packs them (`Instruction.encode_eq_ok_iff`), and a cursor finds
them, in any word that decodes (`reads_of_decode`).
-/

namespace Tetrad

def Instruction.cut (instruction : Instruction) : Instruction :=
  { instruction with operands := instruction.operands.map Operand.cut }

/-- The fields of the operands, one list for each. -/
def Instruction.Fields (instruction : Instruction) (fields : List (List Field)) : Prop :=
  List.Forall₂ (fun operand own => operand.fields? = some own) instruction.operands fields

theorem Form.firstIllegal?_eq_none_iff {form : Form} {modes : List Mode} :
    form.firstIllegal? modes = none ↔
      ∀ pair ∈ form.operands.zip modes, pair.1.admits pair.2 = true := by
  have search := @find?_zipIdx_eq_none_iff _ (form.operands.zip modes)
    fun pair => !pair.1.admits pair.2
  unfold firstIllegal?
  rw [Option.map_eq_none_iff]
  exact search.trans (by simp)

/-- The checks of the encoder are that the form admits the modes. -/
theorem Form.admits_iff {form : Form} {modes : List Mode} :
    form.Admits modes ↔ modes.length = form.arity ∧ form.firstIllegal? modes = none ∧
      sameTags ((form.atFree modes).map Mode.tag) = true := by
  rw [firstIllegal?_eq_none_iff, sameTags_iff]
  exact fits_iff.trans (by simp [SharesTag])

/-- An instruction has a tag when the form admits its modes and a word holds them. -/
theorem Instruction.check_eq_ok_iff {instruction : Instruction} {form : Form} {tag : Nat} :
    instruction.check form = .ok tag ↔ form.Admits instruction.modes ∧
      layoutBits instruction.modes ≤ 32 ∧ tag = form.tag instruction.modes := by
  have length : instruction.modes.length = instruction.operands.length := List.length_map _
  rw [Form.admits_iff, length]
  unfold Instruction.check
  constructor
  · intro checked
    dsimp only at checked
    split at checked
    · cases checked
    · next arity =>
      split at checked
      · cases checked
      · next legal =>
        split at checked
        · cases checked
        · next shared =>
          split at checked
          · cases checked
          · next fits =>
            cases checked
            have same : sameTags ((form.atFree instruction.modes).map Mode.tag) = true := by
              simpa using shared
            exact ⟨⟨not_not.mp arity, legal, same⟩, Nat.le_of_not_gt fits, rfl⟩
  · rintro ⟨⟨arity, legal, shared⟩, fits, rfl⟩
    have narrow : ¬ layoutBits instruction.modes > 32 := Nat.not_lt.mpr fits
    simp only [arity, legal, shared]
    rw [if_neg (by simp), if_neg (by simp), if_neg narrow]

/-- An instruction has a word when the form admits its modes, the word holds them, and no operand
refers to a label. The word packs the fields and ends in zeros. -/
theorem Instruction.encode_eq_ok_iff {instruction : Instruction} {form : Form} {word : UInt32} :
    instruction.encode form = .ok word ↔
      form.Admits instruction.modes ∧ layoutBits instruction.modes ≤ 32 ∧
        ∃ fields, instruction.Fields fields ∧ word = UInt32.ofNat (Field.pack 32
          (wordFields instruction.opcode (form.tag instruction.modes) fields)) := by
  unfold Instruction.encode
  constructor
  · intro encoded
    split at encoded
    · cases encoded
    · next tag checked =>
      obtain ⟨admits, fits, rfl⟩ := check_eq_ok_iff.mp checked
      split at encoded
      · cases encoded
      · next fields has =>
        cases encoded
        exact ⟨admits, fits, fields, mapM_eq_some_iff_forall₂.mp has, rfl⟩
  · rintro ⟨admits, fits, fields, has, rfl⟩
    rw [check_eq_ok_iff.mpr ⟨admits, fits, rfl⟩, mapM_eq_some_iff_forall₂.mpr has]

theorem Opcode.number_lt (opcode : Opcode) : opcode.number < 2 ^ width := by
  rcases opcode with _ | _ | _ | _ | _ | _ | op | condition
  all_goals first | decide | (cases op <;> decide) | (cases condition <;> decide)

theorem Opcode.number_of_ofNumber? {number : Nat} {opcode : Opcode}
    (named : ofNumber? number = some opcode) : opcode.number = number := by
  have listed : ∀ place : Fin all.length, (all[place]).number = place := by decide
  obtain ⟨inside, rfl⟩ := List.getElem?_eq_some_iff.mp named
  exact listed ⟨number, inside⟩

theorem Table.opcode_of_byOpcode? {table : Table} {opcode : Opcode} {form : Form}
    (found : table.byOpcode? opcode = some form) : form.opcode = opcode := by
  simpa using List.find?_some found

theorem Table.decode_eq_ok_iff {table : Table} {word : UInt32} {instruction : Instruction} :
    table.decode word = .ok instruction ↔
      ∃ form number tag afterOpcode afterTag last,
        (Cursor.ofWord word).take Opcode.width = (number, afterOpcode) ∧
        Opcode.ofNumber? number = some instruction.opcode ∧
        table.byOpcode? instruction.opcode = some form ∧
        afterOpcode.take tagWidth = (tag, afterTag) ∧
        FieldSource.readOperands afterTag tag 0 form.operands =
          (.ok instruction.operands, last) := by
  unfold Table.decode Table.read
  simp only [Cursor.take_source]
  constructor
  · intro decoded
    cases first : (Cursor.ofWord word).take Opcode.width with
    | mk number afterOpcode =>
    cases named : Opcode.ofNumber? number with
    | none => simp [first, named] at decoded
    | some opcode =>
    cases found : table.byOpcode? opcode with
    | none => simp [first, named, found] at decoded
    | some form =>
    cases second : afterOpcode.take tagWidth with
    | mk tag afterTag =>
    cases read : FieldSource.readOperands afterTag tag 0 form.operands with
    | mk result last =>
    simp only [first, named, Option.bind_some, found, second, read] at decoded
    obtain ⟨operands, rfl, rfl⟩ := map_eq_ok_iff.mp decoded
    have same := Table.opcode_of_byOpcode? found
    exact ⟨form, number, tag, afterOpcode, afterTag, last, rfl, same ▸ named, same ▸ found, second,
      read⟩
  · rintro ⟨form, number, tag, afterOpcode, afterTag, last, first, named, found, second, read⟩
    simp only [first, named, Option.bind_some, found, second, read, Except.map,
      Table.opcode_of_byOpcode? found]

/-- A word in which a cursor finds the fields of operands decodes to these operands, each cut to its
fields. -/
theorem decode_of_reads {table : Table} {form : Form} {word : UInt32} {instruction : Instruction}
    {tag : Nat} {fields : List (List Field)} {last : Cursor} (small : tag < 2 ^ tagWidth)
    (found : table.byOpcode? instruction.opcode = some form)
    (named : List.Forall₂ (fun set mode => set.decoded? tag = some mode) form.operands
      instruction.modes)
    (has : instruction.Fields fields)
    (reads : (Cursor.ofWord word).Reads (wordFields instruction.opcode tag fields) last) :
    table.decode word = .ok instruction.cut := by
  obtain ⟨-, afterOpcode, first, reads⟩ := Cursor.reads_cons_iff.mp reads
  obtain ⟨-, afterTag, second, reads⟩ := Cursor.reads_cons_iff.mp reads
  rw [Nat.mod_eq_of_lt instruction.opcode.number_lt] at first
  rw [Nat.mod_eq_of_lt small] at second
  have modes : List.Forall₂ (fun set operand => set.decoded? tag = some operand.mode) form.operands
      instruction.operands := by
    rwa [Instruction.modes, List.forall₂_map_right_iff] at named
  exact Table.decode_eq_ok_iff.mpr ⟨form, instruction.opcode.number, tag, afterOpcode, afterTag,
    last, first, Opcode.ofNumber?_number _, found, second,
    Cursor.operands_of_reads modes has reads⟩

/-- A word that decodes holds the fields of what it decodes to, under a tag that names the modes. -/
theorem reads_of_decode {table : Table} {word : UInt32} {instruction : Instruction}
    (decoded : table.decode word = .ok instruction) :
    ∃ form tag fields last, table.byOpcode? instruction.opcode = some form ∧ tag < 2 ^ tagWidth ∧
      List.Forall₂ (fun set mode => set.decoded? tag = some mode) form.operands instruction.modes ∧
      (∀ operand ∈ instruction.operands, operand.InRange) ∧ instruction.Fields fields ∧
      (Cursor.ofWord word).Reads (wordFields instruction.opcode tag fields) last := by
  obtain ⟨form, number, tag, afterOpcode, afterTag, last, first, named, found, second, read⟩ :=
    Table.decode_eq_ok_iff.mp decoded
  have bounded := Cursor.bounded_ofWord word
  have opcodeRead := Cursor.reads_take bounded (by decide : Opcode.width ≤ 32)
  rw [first, ← Opcode.number_of_ofNumber? named] at opcodeRead
  have room : afterOpcode.room = 27 := by
    have := Cursor.take_room (Cursor.ofWord word) Opcode.width
    rw [first] at this
    exact this
  have fits : tagWidth ≤ afterOpcode.room := by rw [room]; decide
  have boundedTag := opcodeRead.bounded bounded
  have tagRead := Cursor.reads_take boundedTag fits
  have small := Cursor.take_lt boundedTag fits
  rw [second] at tagRead small
  obtain ⟨modes, inRange, fields, has, reads⟩ :=
    Cursor.reads_operands (tagRead.bounded boundedTag) read
  refine ⟨form, tag, fields, last, found, small, ?_, inRange, has,
    (opcodeRead.append tagRead).append reads⟩
  rwa [Instruction.modes, List.forall₂_map_right_iff]

theorem Mode.tag_lt (mode : Mode) : mode.tag < 2 ^ tagWidth := by cases mode <;> decide

theorem Form.tag_lt (form : Form) (modes : List Mode) : form.tag modes < 2 ^ tagWidth := by
  unfold Form.tag
  dsimp only
  cases (if form.operands.any ModeSet.isFree then form.atFree modes else modes).head? with
  | none => decide
  | some mode => exact mode.tag_lt

theorem Instruction.Fields.plain {instruction : Instruction} {fields : List (List Field)}
    (has : instruction.Fields fields) : ∀ mode ∈ instruction.modes, mode ≠ .label := by
  intro mode member
  obtain ⟨operand, inside, rfl⟩ := List.mem_map.mp member
  obtain ⟨own, -, owned⟩ := exists_of_mem_forall₂ has.flip inside
  exact Operand.mode_ne_label owned

theorem Instruction.Fields.total {instruction : Instruction} {fields : List (List Field)}
    (has : instruction.Fields fields) (tag : Nat) :
    Field.total (wordFields instruction.opcode tag fields) = layoutBits instruction.modes := by
  rw [wordFields, Field.total_cons, Field.total_cons, Operand.total_fields_flatten has,
    layoutBits, headerWidth, Nat.add_assoc]
  rfl

theorem Cursor.ofWord_pack {fields : List Field} (fits : Field.total fields ≤ 32) :
    Cursor.ofWord (UInt32.ofNat (Field.pack 32 fields)) = ⟨Field.pack 32 fields, 32⟩ := by
  rw [Cursor.ofWord, UInt32.toNat_ofNat_of_lt' (Field.pack_lt fits)]

/-- The word of an instruction holds its fields and nothing after them. -/
theorem reads_of_encode {instruction : Instruction} {tag : Nat} {fields : List (List Field)}
    (has : instruction.Fields fields) (fits : layoutBits instruction.modes ≤ 32) :
    (Cursor.ofWord (UInt32.ofNat (Field.pack 32 (wordFields instruction.opcode tag fields)))).Reads
      (wordFields instruction.opcode tag fields) ⟨0, 32 - layoutBits instruction.modes⟩ := by
  rw [← has.total tag] at fits ⊢
  rw [Cursor.ofWord_pack fits]
  exact Cursor.reads_pack fits

/-- What an instruction encodes to decodes to the instruction with its values cut to their
fields. -/
theorem decode_of_encode {table : Table} {instruction : Instruction} {form : Form} {word : UInt32}
    (found : table.byOpcode? instruction.opcode = some form)
    (encoded : instruction.encode form = .ok word) : table.decode word = .ok instruction.cut := by
  obtain ⟨admits, fits, fields, has, rfl⟩ := Instruction.encode_eq_ok_iff.mp encoded
  have named := admits.decoded has.plain
  exact decode_of_reads (form.tag_lt _) found named has (reads_of_encode has fits)

theorem Instruction.cut_of_inRange {instruction : Instruction}
    (inRange : ∀ operand ∈ instruction.operands, operand.InRange) :
    instruction.cut = instruction := by
  rw [Instruction.cut, Operand.map_cut_of_inRange inRange]

/-- Decoding undoes encoding: only a scaled base is cut to 12 bits and a scale to 4, and an
instruction whose values fit their fields comes back as it was. -/
theorem decode_encode (table : Table) (instruction : Instruction) (form : Form) (word : UInt32)
    (found : table.byOpcode? instruction.opcode = some form)
    (encoded : instruction.encode form = .ok word) :
    table.decode word = .ok instruction.cut ∧
      ((∀ operand ∈ instruction.operands, operand.InRange) →
        table.decode word = .ok instruction) := by
  have decoded := decode_of_encode found encoded
  refine ⟨decoded, fun inRange => ?_⟩
  rw [decoded, Instruction.cut_of_inRange inRange]

/-- A scaled store whose base and scale do not fit loses their high bits and nothing else; what is
left of it has the same word and comes back as it was. -/
theorem decode_encode_scaled_store :
    (Instruction.encode ⟨.store, [.register ⟨2⟩, .indexedScaled 0xFABC 0x14 ⟨5⟩]⟩
        ⟨"STR", .store, [Table.registerOnly, Table.memoryModes]⟩ = .ok 0x97254ABC ∧
      Table.standard.decode 0x97254ABC =
        .ok ⟨.store, [.register ⟨2⟩, .indexedScaled 0xABC 4 ⟨5⟩]⟩) ∧
    (∀ operand ∈ [Operand.register ⟨2⟩, .indexedScaled 0xABC 4 ⟨5⟩], operand.InRange) ∧
    Instruction.encode ⟨.store, [.register ⟨2⟩, .indexedScaled 0xABC 4 ⟨5⟩]⟩
        ⟨"STR", .store, [Table.registerOnly, Table.memoryModes]⟩ = .ok 0x97254ABC ∧
      Table.standard.decode 0x97254ABC =
        .ok ⟨.store, [.register ⟨2⟩, .indexedScaled 0xABC 4 ⟨5⟩]⟩ := by
  have inRange : ∀ operand ∈ [Operand.register ⟨2⟩, .indexedScaled 0xABC 4 ⟨5⟩],
      operand.InRange := by simp [Operand.InRange]
  refine ⟨⟨rfl, ?_⟩, inRange, rfl, ?_⟩
  · exact (decode_encode Table.standard
      ⟨.store, [.register ⟨2⟩, .indexedScaled 0xFABC 0x14 ⟨5⟩]⟩
      ⟨"STR", .store, [Table.registerOnly, Table.memoryModes]⟩ 0x97254ABC rfl rfl).1
  · exact (decode_encode Table.standard ⟨.store, [.register ⟨2⟩, .indexedScaled 0xABC 4 ⟨5⟩]⟩
      ⟨"STR", .store, [Table.registerOnly, Table.memoryModes]⟩ 0x97254ABC rfl rfl).2 inRange

end Tetrad
