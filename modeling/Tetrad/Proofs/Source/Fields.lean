import Mathlib.Data.List.Chain
import Tetrad.Source.Line

namespace Tetrad.Source

variable {c : Char} {text word : List Char}

/-- The runs of a text between separators. -/
def words (text : List Char) : List (List Char) :=
  (text.splitOnP isSeparator).filter fun word => !word.isEmpty

theorem words_append_separator (separates : isSeparator c = true) (before after : List Char) :
    words (before ++ c :: after) = words before ++ words after := by
  unfold words
  rw [List.splitOnP_append_cons before after separates, List.filter_append]

theorem words_cons_separator (separates : isSeparator c = true) (after : List Char) :
    words (c :: after) = words after := words_append_separator separates [] after

theorem words_of_plain (nonempty : word ≠ []) (plain : ∀ c ∈ word, isSeparator c = false) :
    words word = [word] := by
  unfold words
  rw [List.splitOnP_eq_singleton plain]
  simp [nonempty]

/-- A run that ends where the text ends or a separator stands is the first word. -/
theorem words_append (nonempty : word ≠ []) (plain : ∀ c ∈ word, isSeparator c = false)
    (ended : ∀ c, text.head? = some c → isSeparator c = true) :
    words (word ++ text) = word :: words text := by
  cases text with
  | nil =>
    rw [List.append_nil, words_of_plain nonempty plain]
    rfl
  | cons c rest =>
    have separates := ended c rfl
    rw [words_append_separator separates, words_cons_separator separates,
      words_of_plain nonempty plain]
    rfl

/-- No comment starts in a text. -/
def Uncommented (text : List Char) : Prop := text.IsChain fun a b => ¬ (a = '/' ∧ b = '/')

theorem Uncommented.cons (apart : c ≠ '/') (free : Uncommented text) : Uncommented (c :: text) := by
  refine List.isChain_cons.mpr ⟨?_, free⟩
  rintro next - ⟨rfl, -⟩
  exact apart rfl

theorem uncommented_of_not_mem (free : '/' ∉ text) : Uncommented text := by
  induction text with
  | nil => exact .nil
  | cons c rest ih =>
    rw [List.mem_cons, not_or] at free
    exact (ih free.2).cons (Ne.symm free.1)

theorem Uncommented.append (before : Uncommented text) (after : Uncommented word)
    (apart : word.head? ≠ some '/') : Uncommented (text ++ word) := by
  refine List.isChain_append.mpr ⟨before, after, ?_⟩
  rintro a - b first ⟨-, rfl⟩
  exact apart first

theorem splitComment_of_uncommented (free : Uncommented text) :
    splitComment text = (text, none) := by
  induction text with
  | nil => rfl
  | cons c rest ih =>
    obtain ⟨apart, free⟩ := List.isChain_cons.mp free
    have starts_none : ∀ comment, c = '/' → rest = '/' :: comment → False := by
      rintro comment rfl rfl
      exact apart '/' rfl ⟨rfl, rfl⟩
    rw [splitComment.eq_3 _ _ starts_none, ih free]

/-- What stands in front of the comment of a line has none, and is the start of the line. -/
theorem splitComment_code (line : List Char) :
    Uncommented (splitComment line).1 ∧ (splitComment line).1 <+: line := by
  fun_induction splitComment line with
  | case1 => exact ⟨.nil, List.nil_prefix⟩
  | case2 comment => exact ⟨.nil, List.nil_prefix⟩
  | case3 c rest starts_none code comment cut ih =>
    rw [cut] at ih
    obtain ⟨free, starts⟩ := ih
    refine ⟨List.isChain_cons.mpr ⟨?_, free⟩, List.cons_prefix_cons.mpr ⟨rfl, starts⟩⟩
    rintro next first ⟨rfl, rfl⟩
    obtain ⟨later, rfl⟩ := List.head?_eq_some_iff.mp first
    obtain ⟨behind, rfl⟩ := starts
    exact starts_none _ rfl rfl

/-- The text of a piece that is a field. -/
def Piece.text? : Piece → Option (List Char)
  | field _ text => some text
  | comma _ => none

/-- Pieces cut from a text that starts at a column: blanks are left out, a comma stands for itself,
and a field is a longest run without separators. -/
inductive Cut : Nat → List Char → List Piece → Prop
  | done {column : Nat} : Cut column [] []
  | blank {column : Nat} {c : Char} {text : List Char} {found : List Piece}
      (skipped : isBlank c = true) (later : Cut (column + c.utf8Size) text found) :
      Cut column (c :: text) found
  | comma {column : Nat} {text : List Char} {found : List Piece}
      (later : Cut (column + 1) text found) : Cut column (',' :: text) (.comma column :: found)
  | field {column : Nat} {own text : List Char} {found : List Piece} (nonempty : own ≠ [])
      (plain : ∀ c ∈ own, isSeparator c = false)
      (ended : ∀ c, text.head? = some c → isSeparator c = true)
      (later : Cut (column + byteLength own) text found) :
      Cut column (own ++ text) (.field column own :: found)

theorem isSeparator_of_isBlank (blank : isBlank c = true) : isSeparator c = true := by
  simp [isSeparator, blank]

section

variable {column start : Nat} {own : List Char} {found later : List Piece}

theorem Cut.column_le (cut : Cut column text found) (starts : found = .field start own :: later) :
    column ≤ start := by
  induction cut with
  | done => cases starts
  | blank skipped _ ih => exact Nat.le_trans (Nat.le_add_right _ _) (ih starts)
  | comma _ _ => cases starts
  | field _ _ _ _ _ =>
    cases starts
    exact Nat.le_refl _

/-- A character that separates nothing starts a field, or grows the one that starts right behind
it. -/
theorem cut_cons_solid (solid : isSeparator c = false)
    (cut : Cut (column + c.utf8Size) text (pieces (column + c.utf8Size) text)) :
    Cut column (c :: text) (pieces column (c :: text)) := by
  obtain ⟨dense, comma⟩ : isBlank c = false ∧ c ≠ ',' := by simpa [isSeparator] using solid
  have single : ∀ d ∈ [c], isSeparator d = false := by simp [solid]
  have nonempty : [c] ≠ [] := List.cons_ne_nil _ _
  rw [pieces, if_neg comma, if_neg (by simp [dense])]
  generalize pieces (column + c.utf8Size) text = found at cut
  cases cut with
  | done => exact .field nonempty single nofun .done
  | @blank _ space rest _ skipped later =>
    have ended : ∀ d, (space :: rest).head? = some d → isSeparator d = true := by
      rintro d ⟨⟩
      exact isSeparator_of_isBlank skipped
    have alone : Cut column ([c] ++ space :: rest) (.field column [c] :: found) :=
      .field nonempty single ended (.blank skipped later)
    -- Behind the blank no field can start where this one ends.
    cases found with
    | nil => exact alone
    | cons piece others =>
      cases piece with
      | comma place => exact alone
      | field start own =>
        have further := later.column_le rfl
        have wide := space.utf8Size_pos
        have apart : start ≠ column + c.utf8Size := by omega
        simp only [apart, if_false]
        exact alone
  | @comma _ rest _ later =>
    have ended : ∀ d, (',' :: rest).head? = some d → isSeparator d = true := by
      rintro d ⟨⟩
      rfl
    exact .field nonempty single ended (.comma later)
  | field _ plain ended later =>
    simp only [if_true]
    rw [Nat.add_assoc] at later
    exact .field (List.cons_ne_nil _ _) (List.forall_mem_cons.mpr ⟨solid, plain⟩) ended later

theorem cut_pieces (column : Nat) (text : List Char) : Cut column text (pieces column text) := by
  induction text generalizing column with
  | nil => exact .done
  | cons c rest ih =>
    have later := ih (column + c.utf8Size)
    by_cases comma : c = ','
    · subst comma
      rw [pieces, if_pos rfl]
      exact .comma later
    · by_cases blank : isBlank c = true
      · rw [pieces, if_neg comma, if_pos blank]
        exact .blank blank later
      · exact cut_cons_solid (by simp [isSeparator, comma, blank]) later

theorem Cut.texts (cut : Cut column text found) : found.filterMap Piece.text? = words text := by
  induction cut with
  | done => rfl
  | blank skipped _ ih => rw [words_cons_separator (isSeparator_of_isBlank skipped), ih]
  | comma _ ih =>
    rw [words_cons_separator rfl, ← ih]
    rfl
  | field nonempty plain ended _ ih =>
    rw [words_append nonempty plain ended, ← ih]
    rfl

/-- A longest run without separators, between what stands before it and what stands behind it. -/
structure IsRun (before own after : List Char) : Prop where
  nonempty : own ≠ []
  plain : ∀ c ∈ own, isSeparator c = false
  opened : ∀ c, before.getLast? = some c → isSeparator c = true
  ended : ∀ c, after.head? = some c → isSeparator c = true

theorem IsRun.cons {before after : List Char} (separates : isSeparator c = true)
    (run : IsRun before own after) : IsRun (c :: before) own after := by
  refine ⟨run.nonempty, run.plain, ?_, run.ended⟩
  intro d last
  cases before with
  | nil =>
    cases last
    exact separates
  | cons other rest =>
    rw [List.getLast?_cons_cons] at last
    exact run.opened d last

theorem IsRun.append {before after : List Char} (first : List Char)
    (ended : ∀ c, (before ++ own ++ after).head? = some c → isSeparator c = true)
    (run : IsRun before own after) : IsRun (first ++ before) own after := by
  refine ⟨run.nonempty, run.plain, ?_, run.ended⟩
  intro d last
  cases before with
  | nil =>
    obtain ⟨c, rest, rfl⟩ := List.exists_cons_of_ne_nil run.nonempty
    have solid := run.plain c List.mem_cons_self
    rw [ended c rfl] at solid
    cases solid
  | cons other rest =>
    rw [List.getLast?_append_of_ne_nil _ (List.cons_ne_nil other rest)] at last
    exact run.opened d last

def Piece.isComma : Piece → Bool
  | field _ _ => false
  | comma _ => true

/-- A field stands in the text from its column on, and only separators stand in front of it if only
commas are found before it. -/
theorem Cut.exists_run {earlier : List Piece} (cut : Cut column text found)
    (listed : found = earlier ++ .field start own :: later) : ∃ before after,
      text = before ++ own ++ after ∧ start = column + byteLength before ∧
        IsRun before own after ∧ before.all isSeparator = earlier.all Piece.isComma := by
  induction cut generalizing earlier with
  | done => simp at listed
  | blank skipped _ ih =>
    obtain ⟨before, after, rfl, rfl, run, same⟩ := ih listed
    have separates := isSeparator_of_isBlank skipped
    refine ⟨_ :: before, after, rfl, ?_, run.cons separates, ?_⟩
    · simp [Nat.add_assoc]
    · simp [separates, same]
  | comma _ ih =>
    cases earlier with
    | nil => cases listed
    | cons piece earlier =>
      cases listed
      obtain ⟨before, after, rfl, rfl, run, same⟩ := ih rfl
      refine ⟨',' :: before, after, rfl, ?_, run.cons rfl, ?_⟩
      · rw [byteLength_cons, ← Nat.add_assoc]
        rfl
      · rw [List.all_cons, List.all_cons, same]
        rfl
  | @field _ first _ _ nonempty plain ended _ ih =>
    cases earlier with
    | nil =>
      cases listed
      exact ⟨[], _, rfl, rfl, ⟨nonempty, plain, nofun, ended⟩, rfl⟩
    | cons piece earlier =>
      cases listed
      obtain ⟨before, after, rfl, rfl, run, -⟩ := ih rfl
      refine ⟨first ++ before, after, ?_, ?_, run.append first ended, ?_⟩
      · simp
      · simp [Nat.add_assoc]
      · obtain ⟨c, rest, rfl⟩ := List.exists_cons_of_ne_nil nonempty
        simp [plain c List.mem_cons_self, Piece.isComma]

end

/-- The fields of a line are the words in front of its comment. -/
theorem texts_fields (number : Nat) (line : List Char) :
    (fields number line).map (·.text.toList) = words (splitComment line).1 := by
  rw [← (cut_pieces 0 (splitComment line).1).texts, fields, List.map_filterMap]
  congr 1
  funext piece
  cases piece <;> simp [Piece.lexeme?, Piece.text?]

/-- A text that is one field wherever it is written between separators. -/
structure IsWord (word : List Char) : Prop where
  nonempty : word ≠ []
  plain : ∀ c ∈ word, isSeparator c = false
  uncommented : Uncommented word

theorem IsRun.isWord {line before after : List Char} (run : IsRun before word after)
    (whole : (splitComment line).1 = before ++ word ++ after) : IsWord word := by
  have free : Uncommented (before ++ word ++ after) := by
    rw [← whole]
    exact (splitComment_code line).1
  exact ⟨run.nonempty, run.plain, free.left_of_append.right_of_append⟩

theorem exists_run_of_mem_fields {number : Nat} {line : List Char} {field : Lexeme}
    (member : field ∈ fields number line) : ∃ before after,
      (splitComment line).1 = before ++ field.text.toList ++ after ∧
        field.location = ⟨number, byteLength before⟩ ∧ IsRun before field.text.toList after := by
  obtain ⟨piece, found, own⟩ := List.mem_filterMap.mp member
  obtain ⟨earlier, later, listed⟩ := List.append_of_mem found
  cases piece with
  | comma column => cases own
  | field column text =>
    cases own
    obtain ⟨before, after, whole, rfl, run, -⟩ := (cut_pieces 0 _).exists_run listed
    rw [String.toList_ofList]
    exact ⟨before, after, whole, by rw [Nat.zero_add], run⟩

theorem isWord_of_mem_fields {number : Nat} {line : List Char} {field : Lexeme}
    (member : field ∈ fields number line) : IsWord field.text.toList := by
  obtain ⟨before, after, whole, -, run⟩ := exists_run_of_mem_fields member
  exact run.isWord whole

theorem IsWord.not_mem_lineFeed (own : IsWord word) : '\n' ∉ word := by
  intro member
  have impossible := own.plain '\n' member
  revert impossible
  decide

theorem not_mem_intercalate {list : List (List Char)} (all : ∀ word ∈ list, IsWord word) :
    '\n' ∉ [',', ' '].intercalate list := by
  induction list with
  | nil => exact List.not_mem_nil
  | cons word rest ih =>
    obtain ⟨own, others⟩ := List.forall_mem_cons.mp all
    by_cases last : rest = []
    · rw [last, List.intercalate_singleton]
      exact own.not_mem_lineFeed
    · rw [List.intercalate_cons_of_ne_nil last]
      simp [own.not_mem_lineFeed, ih others]

theorem words_intercalate {list : List (List Char)} (all : ∀ word ∈ list, IsWord word) :
    words ([',', ' '].intercalate list) = list := by
  induction list with
  | nil => rfl
  | cons word rest ih =>
    obtain ⟨own, others⟩ := List.forall_mem_cons.mp all
    by_cases last : rest = []
    · rw [last, List.intercalate_singleton, words_of_plain own.nonempty own.plain]
    · rw [List.intercalate_cons_of_ne_nil last, List.append_assoc]
      show words (word ++ ',' :: ' ' :: [',', ' '].intercalate rest) = word :: rest
      rw [words_append_separator (by decide), words_cons_separator (by decide), ih others,
        words_of_plain own.nonempty own.plain]
      rfl

theorem uncommented_intercalate {list : List (List Char)} (all : ∀ word ∈ list, IsWord word) :
    Uncommented ([',', ' '].intercalate list) := by
  induction list with
  | nil => exact .nil
  | cons word rest ih =>
    obtain ⟨own, others⟩ := List.forall_mem_cons.mp all
    by_cases last : rest = []
    · rw [last, List.intercalate_singleton]
      exact own.uncommented
    · rw [List.intercalate_cons_of_ne_nil last, List.append_assoc]
      have later : Uncommented (',' :: ' ' :: [',', ' '].intercalate rest) :=
        ((ih others).cons (by decide)).cons (by decide)
      exact own.uncommented.append later (by simp)

/-- A first word and others behind it, as one line says them, are its fields. -/
theorem words_command {list : List (List Char)} (own : IsWord word)
    (all : ∀ word ∈ list, IsWord word) :
    words (splitComment (word ++ ' ' :: [',', ' '].intercalate list)).1 = word :: list := by
  have later : Uncommented (' ' :: [',', ' '].intercalate list) :=
    (uncommented_intercalate all).cons (by decide)
  rw [splitComment_of_uncommented (own.uncommented.append later (by simp)),
    words_append_separator (by decide), words_intercalate all,
    words_of_plain own.nonempty own.plain]
  rfl

theorem texts_rows (source : String) : (rows source).map (List.map (·.text.toList)) =
    (lines source.toList).map fun line => words (splitComment line).1 := by
  rw [rows, numbered, List.map_map]
  conv_rhs => rw [← List.zipIdx_map_fst 1 (lines source.toList), List.map_map]
  exact List.map_congr_left fun entry _ => texts_fields entry.2 entry.1

/-- Texts of one line each, written line by line, are the rows of what is written. -/
theorem texts_rows_intercalate {texts : List String} (several : texts ≠ [])
    (flat : ∀ text ∈ texts, '\n' ∉ text.toList) :
    (rows (String.intercalate "\n" texts)).map (List.map (·.text.toList)) =
      texts.map fun text => words (splitComment text.toList).1 := by
  have split : lines (String.intercalate "\n" texts).toList = texts.map String.toList := by
    rw [String.toList_intercalate]
    refine List.splitOn_intercalate '\n' ?_ (by simpa using several)
    intro line member
    obtain ⟨text, inTexts, rfl⟩ := List.mem_map.mp member
    exact flat text inTexts
  rw [texts_rows, split, List.map_map]
  rfl

end Tetrad.Source
