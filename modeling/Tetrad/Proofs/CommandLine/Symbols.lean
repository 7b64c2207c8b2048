import Tetrad.Proofs.CommandLine.Session
import Tetrad.Proofs.Program.Printing

/-!
# The symbol table that is printed

The table is printed as a JSON object. Read back token by token (`Json.Reads`), it has the base and
every declared label once with its address (`Labels.PrintedAs`). The labels stand in the order of
their names and not in that of the entries of the table, so the two orders agree just if the
addresses rise with the names (`Directory.printedAs_of_makes`). A label that is declared above
another and named after it is printed below it (`Directory.misplaces_falling`).
-/

namespace Tetrad

namespace Json

/-- The tokens of objects, names and natural numbers. -/
inductive Token
  | opening
  | closing
  | colon
  | comma
  | name (text : String)
  | number (value : Nat)
deriving DecidableEq

/-- What stands between names and numbers: a mark, or a blank that says nothing. -/
def mark? : Char → Option (List Token)
  | ' ' | '\t' | '\n' | '\r' => some []
  | '\x7b' => some [.opening]
  | '\x7d' => some [.closing]
  | ':' => some [.colon]
  | ',' => some [.comma]
  | _ => none

/-- The number of a run of digits without leading zeros. -/
def number? (run : List Char) : Option Nat :=
  (Numeral.read? 10 run).filter fun value => Numeral.digits 10 value = run

inductive Part
  | nothing
  | name (read : List Char)
  | number (read : List Char)

/-- The tokens of a text, a part of the first one having been read. No name has an escape. -/
def scan : Part → List Char → Option (List Token)
  | .nothing, [] => some []
  | .name _, [] => none
  | .number read, [] => (number? read).map fun value => [.number value]
  | .nothing, c :: rest =>
    if c = '"' then scan (.name []) rest
    else if c.isDigit then scan (.number [c]) rest
    else do return (← mark? c) ++ (← scan .nothing rest)
  | .name read, c :: rest =>
    if c = '"' then (scan .nothing rest).map (.name (String.ofList read) :: ·)
    else if c = '\\' ∨ c.toNat < 0x20 then none
    else scan (.name (read ++ [c])) rest
  | .number read, c :: rest =>
    if c.isDigit then scan (.number (read ++ [c])) rest
    else do return .number (← number? read) :: (← mark? c) ++ (← scan .nothing rest)

/-- A text has these tokens. -/
def Reads (text : List Char) (tokens : List Token) : Prop := scan .nothing text = some tokens

/-- A character that stands for itself in a name. -/
def Plain (c : Char) : Prop := c ≠ '"' ∧ c ≠ '\\' ∧ 0x20 ≤ c.toNat

variable {c : Char} {text rest letters read run : List Char} {tokens other said : List Token}

theorem plain_of_isLabelName (valid : isLabelName letters = true) : ∀ c ∈ letters, Plain c := by
  intro c member
  rcases isLabelName_chars valid c member with solid | rfl
  · rw [isAlphanum_iff] at solid
    refine ⟨?_, ?_, by omega⟩
    · rintro rfl
      revert solid
      decide
    · rintro rfl
      revert solid
      decide
  · exact ⟨nofun, nofun, by decide⟩

theorem Reads.unique (reads : Reads text tokens) (also : Reads text other) : tokens = other :=
  Option.some.inj (reads.symm.trans also)

theorem apart_of_mark? (mark : mark? c = some said) : c ≠ '"' ∧ c.isDigit = false := by
  unfold mark? at mark
  split at mark
  all_goals first | decide | cases mark

theorem Reads.mark (mark : mark? c = some said) (later : Reads rest tokens) :
    Reads (c :: rest) (said ++ tokens) := by
  obtain ⟨apart, solid⟩ := apart_of_mark? mark
  rw [Reads, scan, if_neg apart, solid, if_neg Bool.false_ne_true, mark, later]
  rfl

theorem Reads.blank (blank : mark? c = some []) (later : Reads rest tokens) :
    Reads (c :: rest) tokens :=
  later.mark blank

theorem Reads.sign {token : Token} (sign : mark? c = some [token]) (later : Reads rest tokens) :
    Reads (c :: rest) (token :: tokens) :=
  later.mark sign

theorem Reads.blanks (blank : ∀ c ∈ text, c = ' ') (later : Reads rest tokens) :
    Reads (text ++ rest) tokens := by
  induction text with
  | nil => exact later
  | cons c text ih =>
    obtain ⟨rfl, others⟩ := List.forall_mem_cons.mp blank
    exact (ih others).blank rfl

theorem scan_name (plain : ∀ c ∈ letters, Plain c) : scan (.name read) (letters ++ '"' :: rest) =
    (scan .nothing rest).map (.name (String.ofList (read ++ letters)) :: ·) := by
  induction letters generalizing read with
  | nil => simp [scan]
  | cons c letters ih =>
    obtain ⟨⟨apart, whole, high⟩, plain⟩ := List.forall_mem_cons.mp plain
    rw [List.cons_append, scan, if_neg apart, if_neg (by simp [whole, high]), ih plain,
      List.append_assoc]
    rfl

theorem Reads.name {name : String} (plain : ∀ c ∈ name.toList, Plain c)
    (later : Reads rest tokens) :
    Reads ('"' :: name.toList ++ '"' :: rest) (.name name :: tokens) := by
  rw [Reads, List.cons_append, scan, if_pos rfl, scan_name plain, later]
  simp

theorem number?_digits (value : Nat) : number? (Numeral.digits 10 value) = some value := by
  simp [number?, Numeral.read?_digits]

theorem scan_number (all : ∀ c ∈ run, c.isDigit = true) :
    scan (.number read) (run ++ rest) = scan (.number (read ++ run)) rest := by
  induction run generalizing read with
  | nil => simp
  | cons c run ih =>
    obtain ⟨own, all⟩ := List.forall_mem_cons.mp all
    rw [List.cons_append, scan, if_pos own, ih all, List.append_assoc]
    rfl

theorem Reads.number (value : Nat) (mark : mark? c = some said)
    (later : Reads (c :: rest) tokens) :
    Reads (Numeral.digits 10 value ++ c :: rest) (.number value :: tokens) := by
  have all : ∀ c ∈ Numeral.digits 10 value, c.isDigit = true := fun _ => isDigit_of_mem_digits
  have whole := number?_digits value
  obtain ⟨unquoted, solid⟩ := apart_of_mark? mark
  rw [Reads, scan, if_neg unquoted, solid, if_neg Bool.false_ne_true] at later
  obtain ⟨first, run, split⟩ : ∃ first run, Numeral.digits 10 value = first :: run :=
    List.exists_cons_of_ne_nil Nat.toDigits_ne_nil
  rw [split] at all whole ⊢
  obtain ⟨own, all⟩ := List.forall_mem_cons.mp all
  have apart : first ≠ '"' := by
    rintro rfl
    cases own
  rw [Reads, List.cons_append, scan, if_neg apart, if_pos own, scan_number all, scan, solid,
    if_neg Bool.false_ne_true, List.singleton_append, whole]
  rw [mark] at later ⊢
  cases found : scan .nothing rest with
  | none =>
    rw [found] at later
    cases later
  | some more =>
    rw [found] at later
    cases later
    rfl

def object (members : List (List Token)) : List Token :=
  .opening :: [.comma].intercalate members ++ [.closing]

def member (name : String) (value : List Token) : List Token := .name name :: .colon :: value

def members (entries : List (String × UInt16)) : List (List Token) :=
  entries.map fun entry => member entry.1 [.number entry.2.toNat]

/-- The tokens of a symbol table: an object with a base and an object of labels. -/
def table (base : UInt16) (entries : List (String × UInt16)) : List Token :=
  object [member "base" [.number base.toNat], member "labels" (object (members entries))]

variable {base : UInt16} {entries others : List (String × UInt16)} {indent : List Char}

theorem members_injective (same : [Token.comma].intercalate (members entries) =
    [Token.comma].intercalate (members others)) : entries = others := by
  induction entries generalizing others with
  | nil =>
    cases others with
    | nil => rfl
    | cons other rest => cases rest <;> cases same
  | cons entry more ih =>
    obtain ⟨name, address⟩ := entry
    cases others with
    | nil => cases more <;> cases same
    | cons other rest =>
      obtain ⟨otherName, otherAddress⟩ := other
      cases more with
      | nil =>
        cases rest with
        | nil => simpa [members, member, UInt16.toNat_inj] using same
        | cons next rest => simp [members, member] at same
      | cons first more =>
        cases rest with
        | nil => simp [members, member] at same
        | cons next rest =>
          simp only [members, List.map_cons, List.intercalate_cons_cons, member, List.cons_append,
            List.cons.injEq, Token.name.injEq, Token.number.injEq, UInt16.toNat_inj,
            List.nil_append, true_and] at same
          obtain ⟨rfl, rfl, later⟩ := same
          have later : first :: more = next :: rest := ih later
          rw [later]

theorem table_injective (same : table base entries = table base others) : entries = others := by
  refine members_injective ?_
  simpa [table, object, member] using same

theorem Reads.key (name : String) (blank : ∀ c ∈ indent, c = ' ')
    (plain : ∀ c ∈ name.toList, Plain c) (later : Reads rest tokens) :
    Reads (Labels.keyText indent name.toList ++ rest) (.name name :: .colon :: tokens) := by
  have parted : Reads (':' :: ' ' :: rest) (.colon :: tokens) := (later.blank rfl).sign rfl
  have quoted := (parted.name plain).blanks blank
  simpa [Labels.keyText] using quoted

theorem Reads.members (plain : ∀ entry ∈ entries, ∀ c ∈ entry.1.toList, Plain c)
    (several : entries ≠ []) (later : Reads ('\n' :: rest) tokens) :
    Reads (Labels.membersText entries ++ '\n' :: rest)
      ([.comma].intercalate (Json.members entries) ++ tokens) := by
  induction entries with
  | nil => exact absurd rfl several
  | cons entry more ih =>
    obtain ⟨own, plain⟩ := List.forall_mem_cons.mp plain
    have blank : ∀ c ∈ [' ', ' ', ' ', ' '], c = ' ' := by simp
    cases more with
    | nil =>
      have read := (later.number entry.2.toNat rfl).key entry.1 blank own
      simpa [Labels.membersText, Json.members, member] using read
    | cons next more =>
      have others := (ih plain (List.cons_ne_nil next more)).blank (c := '\n') rfl
      have parted : Reads (',' :: '\n' :: (Labels.membersText (next :: more) ++ '\n' :: rest))
          (.comma :: ([.comma].intercalate (Json.members (next :: more)) ++ tokens)) :=
        others.sign rfl
      have read := (parted.number entry.2.toNat rfl).key entry.1 blank own
      simpa [Labels.membersText, Json.members, member] using read

theorem Reads.object (plain : ∀ entry ∈ entries, ∀ c ∈ entry.1.toList, Plain c)
    (later : Reads rest tokens) :
    Reads (Labels.objectText entries ++ rest) (object (Json.members entries) ++ tokens) := by
  rw [Labels.objectText]
  split
  · next none =>
    rw [none]
    exact (later.sign rfl).sign rfl
  · next several =>
    have closed : Reads ('\n' :: ' ' :: ' ' :: '\x7d' :: rest) (.closing :: tokens) :=
      (((later.sign rfl).blank rfl).blank rfl).blank rfl
    have listed := closed.members plain several
    have opened : Reads
        ('\x7b' :: '\n' :: (Labels.membersText entries ++ '\n' :: ' ' :: ' ' :: '\x7d' :: rest))
        (.opening :: ([.comma].intercalate (Json.members entries) ++ .closing :: tokens)) :=
      (listed.blank rfl).sign rfl
    simpa [Json.object] using opened

end Json

namespace Labels

open Json

variable {labels : Labels}

/-- The text of a table reads as its base and its labels in the order of their names. -/
theorem reads_json (plain : ∀ entry ∈ labels.byName, ∀ c ∈ entry.1.toList, Plain c) :
    Reads labels.json.toList (Json.table labels.base labels.byName) := by
  have blank : ∀ c ∈ [' ', ' '], c = ' ' := by simp
  have ended : Reads ['\n', '\x7d'] [.closing] := Reads.blank rfl (Reads.sign rfl rfl)
  have inner := ((ended.object plain).key "labels" blank (plain_of_isLabelName rfl)).blank (c := '\n') rfl
  have parted := inner.sign (c := ',') rfl
  have based := (parted.number labels.base.toNat rfl).key "base" blank (plain_of_isLabelName rfl)
  rw [toList_json]
  have whole := (based.blank (c := '\n') rfl).sign (c := '\x7b') rfl
  simpa [Json.table, Json.object, Json.member] using whole

theorem byName_perm (labels : Labels) : labels.byName.Perm labels.places :=
  List.mergeSort_perm labels.places _

/-- Labels with distinct names are printed in the strict order of the names. -/
theorem byName_ordered (distinct : (labels.places.map Prod.fst).Nodup) :
    labels.byName.Pairwise fun a b => a.1 < b.1 := by
  have sorted : labels.byName.Pairwise fun a b => decide (a.1 ≤ b.1) = true := by
    refine List.pairwise_mergeSort ?_ ?_ labels.places
    · intro a b c first second
      simp only [decide_eq_true_eq] at *
      exact String.le_trans first second
    · intro a b
      simpa using String.le_total a.1 b.1
  have names : (labels.byName.map Prod.fst).Nodup :=
    ((byName_perm labels).map Prod.fst).nodup_iff.mpr distinct
  refine sorted.imp₂ ?_ (List.pairwise_map.mp names)
  intro a b order other
  exact Std.lt_of_le_of_ne (of_decide_eq_true order) other

/-- There is one way to put labels with distinct names in the order of the entries. -/
theorem entries_eq (distinct : (labels.places.map Prod.fst).Nodup)
    {others : List (String × UInt16)} (same : others.Perm labels.places)
    (ordered : others.Pairwise fun a b => a.2 < b.2 ∨ a.2 = b.2 ∧ a.1 < b.1) :
    others = labels.entries := by
  refine List.Perm.eq_of_pairwise ?_ ordered (entries_ordered distinct)
    (same.trans (List.mergeSort_perm labels.places precedes).symm)
  rintro a b - - (below | ⟨level, before⟩) (above | ⟨same, after⟩)
  · exact absurd above (UInt16.lt_asymm below)
  · exact absurd same.symm (UInt16.ne_of_lt below)
  · exact absurd level.symm (UInt16.ne_of_lt above)
  · exact absurd after (String.lt_asymm before)

/-- The order of the names is that of the entries just if no address falls in it. -/
theorem byName_eq_entries_iff (distinct : (labels.places.map Prod.fst).Nodup) :
    labels.byName = labels.entries ↔ labels.byName.Pairwise fun a b => a.2 ≤ b.2 := by
  constructor
  · intro same
    rw [same]
    refine (entries_ordered distinct).imp ?_
    rintro a b (below | ⟨level, -⟩)
    · exact UInt16.le_of_lt below
    · exact level ▸ UInt16.le_refl _
  · intro rising
    refine entries_eq distinct (byName_perm labels) ?_
    refine ((byName_ordered distinct).and rising).imp ?_
    rintro a b ⟨names, places⟩
    rcases UInt16.lt_or_eq_of_le places with below | level
    · exact .inl below
    · exact .inr ⟨level, names⟩

/-- A text is the symbol table of statements: read as JSON it has the base and these members, which
are the declared labels with their addresses, each once and in the order of the names. It reads as
the entries of the table in their own order just if no address falls in the order of the names. -/
structure PrintedAs (labels : Labels) (statements : List Statement) (base : UInt16) (text : String)
    (members : List (String × UInt16)) : Prop where
  reads : Reads text.toList (Json.table base members)
  describes : labels.Describes statements base
  listed : ∀ name address, (name, address) ∈ members ↔ labels.address? name = some address
  once : (members.map Prod.fst).Nodup
  sorted : members.Pairwise fun a b => a.1 < b.1
  ordered : Reads text.toList (Json.table base labels.entries) ↔
    members.Pairwise fun a b => a.2 ≤ b.2

end Labels

namespace Program

variable {base : UInt16} {text : String} {program : Program}

theorem printedAs_of_assemble (assembled : assemble Table.standard base text = .ok program) :
    program.labels.PrintedAs program.statements base program.labels.json program.labels.byName := by
  obtain ⟨parsed, built⟩ := assemble_eq_ok_iff.mp assembled
  obtain ⟨layout, same⟩ := Labels.build_eq_ok_iff.mp built
  have distinct : (program.labels.places.map Prod.fst).Nodup := by
    rw [same]
    exact Labels.nodup_ofPositions layout
  have perm := Labels.byName_perm program.labels
  have plain : ∀ entry ∈ program.labels.byName, ∀ c ∈ entry.1.toList, Json.Plain c := by
    intro entry member
    have declared : entry.1 ∈ Statement.names program.statements := by
      rw [← List.mem_reverse, ← Labels.names_ofPositions _ base, ← same]
      exact List.mem_map_of_mem (perm.mem_iff.mp member)
    obtain ⟨statement, listed, own⟩ := List.mem_filterMap.mp declared
    cases Statement.sayable_of_parse parsed statement listed with
    | @declaration label valid =>
      rw [← Option.some.inj own]
      exact Json.plain_of_isLabelName valid
    | instruction => cases own
  have reads := Labels.reads_json plain
  have origin : program.labels.base = base := by
    rw [same]
    rfl
  rw [origin] at reads
  refine ⟨reads, ?_, ?_, ?_, Labels.byName_ordered distinct, ?_⟩
  · rw [same]
    exact Labels.describes_ofPositions layout
  · intro name address
    exact perm.mem_iff.trans (mem_iff_lookup distinct)
  · exact (perm.map Prod.fst).nodup_iff.mpr distinct
  · rw [← Labels.byName_eq_entries_iff distinct]
    constructor
    · exact fun other => Json.table_injective (reads.unique other)
    · intro same
      rw [← same]
      exact reads

end Program

theorem Request.report_symbols (source output : String) (program : Program) :
    report source output true program =
      report source output false program ++ program.labels.json ++ "\n" := by
  have behind (head : String) :
      (head ++ if true = true then program.labels.json ++ "\n" else "") =
        (head ++ if false = true then program.labels.json ++ "\n" else "") ++
          program.labels.json ++ "\n" := by
    simp [String.append_assoc]
  exact behind _

namespace Directory

variable {directory : Directory} {arguments : List String} {source output name : String}
  {base : Option UInt16} {program : Program}

/-- Assembling with symbols prints the table of the program behind the report. -/
theorem printedAs_of_makes
    (asked : Request.ofArguments arguments = .ok (.assemble source output true base))
    (makes : directory.Makes source (base.getD 0x200) program)
    (located : directory.locate (output ++ ".chip") = .ok name) :
    ∃ text members, (directory.perform arguments).1 =
        .success (Request.report source output false program ++ text ++ "\n") ∧
      program.labels.PrintedAs program.statements (base.getD 0x200) text members := by
  obtain ⟨rom, -, -, performed⟩ := perform_of_makes asked makes located
  obtain ⟨-, text, -, -, assembled⟩ := makes
  refine ⟨_, _, ?_, Program.printedAs_of_assemble assembled⟩
  rw [performed, Request.report_symbols]

/-- The bytes of a source whose first label is named after its second one. -/
def fallingBytes : List UInt8 :=
  [0x2E, 0x7A, 0x0A, 0x48, 0x4C, 0x54, 0x0A, 0x2E, 0x61, 0x0A, 0x48, 0x4C, 0x54, 0x0A]

def falling : Directory := ⟨[("p.s", fallingBytes)]⟩

theorem exists_makes_falling : ∃ program, falling.Makes "p.s" 0x200 program ∧
    program.labels.places = [("a", 0x204), ("z", 0x200)] :=
  ⟨_, ⟨fallingBytes, ".z\nHLT\n.a\nHLT\n", by decide +kernel, by decide +kernel, rfl⟩, rfl⟩

theorem ofArguments_symbols : Request.ofArguments ["assemble", "p.s", "p", "--symbols"] =
    .ok (.assemble "p.s" "p" true none) := by
  decide +kernel

theorem locate_falling : falling.locate ("p" ++ ".chip") = .ok "p.chip" := by
  decide +kernel

/-- Both labels of that source are printed. -/
theorem printedAs_of_makes_falling :
    ∃ program text members,
      (falling.perform ["assemble", "p.s", "p", "--symbols"]).1 =
        .success (Request.report "p.s" "p" false program ++ text ++ "\n") ∧
      program.labels.PrintedAs program.statements 0x200 text members ∧
      ("a", 0x204) ∈ members ∧ ("z", 0x200) ∈ members := by
  obtain ⟨program, makes, places⟩ := exists_makes_falling
  obtain ⟨text, members, reply, printed⟩ :=
    @printedAs_of_makes _ _ _ _ _ none _ ofArguments_symbols makes locate_falling
  refine ⟨program, text, members, reply, printed, ?_, ?_⟩
  · rw [printed.listed, Labels.address?, places]
    rfl
  · rw [printed.listed, Labels.address?, places]
    rfl

/-- That source has its first label at the lower address, and nothing that is printed reads as the
labels in the order of their addresses. -/
theorem misplaces_falling :
    ∃ program, falling.Makes "p.s" 0x200 program ∧
      program.labels.entries = [("z", 0x200), ("a", 0x204)] ∧
      ¬∃ text, (falling.perform ["assemble", "p.s", "p", "--symbols"]).1 =
          .success (Request.report "p.s" "p" false program ++ text ++ "\n") ∧
        Json.Reads text.toList (Json.table 0x200 program.labels.entries) := by
  obtain ⟨program, makes, places⟩ := exists_makes_falling
  have distinct : (program.labels.places.map Prod.fst).Nodup := by
    rw [places]
    decide
  have entries : [("z", 0x200), ("a", 0x204)] = program.labels.entries := by
    refine Labels.entries_eq distinct ?_ (by decide)
    rw [places]
    exact .swap _ _ _
  refine ⟨program, makes, entries.symm, ?_⟩
  rintro ⟨text, reply, reads⟩
  obtain ⟨rom, -, -, performed⟩ :=
    @perform_of_makes _ _ _ _ _ _ none _ ofArguments_symbols makes locate_falling
  rw [performed, Request.report_symbols] at reply
  obtain rfl : program.labels.json = text := by
    simpa [Reply.success] using congrArg Reply.stdout reply
  obtain ⟨_, _, -, -, assembled⟩ := makes
  have printed := Program.printedAs_of_assemble assembled
  have same := (Labels.byName_eq_entries_iff distinct).mpr (printed.ordered.mp reads)
  have sorted := printed.sorted
  rw [same, ← entries] at sorted
  exact absurd sorted (by decide)

end Directory

end Tetrad
