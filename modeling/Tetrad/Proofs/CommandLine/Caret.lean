import Tetrad.Diagnostic
import Tetrad.Proofs.Program.Joining
import Tetrad.Proofs.Program.Pointing

/-!
# Where the caret stands

A report on a source that makes no program ends in three lines: a gutter, the line that the error is
about, and a caret (`Diagnostic.Shows`). The caret stands behind as many blanks as there are bytes
in front of the field that the error speaks of. These are as many as the characters in front of it
just if all of them are of ASCII (`Diagnostic.shows_of_assemble`), so behind a character of several
bytes the caret stands too far to the right (`Diagnostic.misses_noBreak`).
-/

namespace Tetrad

open Source

namespace Source

/-- A line of a text without what ends it: a line feed, or a carriage return and a line feed. -/
inductive LineAt (text : List Char) (index : Nat) : List Char → Prop
  | returned {line : List Char} (found : (lines text)[index]? = some (line ++ ['\r']))
      (ended : index + 1 < (lines text).length) : LineAt text index line
  | plain {line : List Char} (found : (lines text)[index]? = some line)
      (bare : line.getLast? = some '\r' → index + 1 = (lines text).length) :
      LineAt text index line

variable {text raw line before own after : List Char} {index : Nat}

theorem lineFeed_not_mem_of_mem_lines (member : raw ∈ lines text) : '\n' ∉ raw := by
  induction text generalizing raw with
  | nil =>
    obtain rfl : raw = [] := by simpa [lines] using member
    exact List.not_mem_nil
  | cons c rest ih =>
    obtain ⟨first, others, split⟩ : ∃ first others, lines rest = first :: others :=
      List.exists_cons_of_ne_nil (List.splitOn_ne_nil '\n' rest)
    rw [split] at ih
    rw [lines, List.splitOn_cons_eq_if_modifyHead] at member
    change raw ∈ if (c == '\n') = true then [] :: lines rest else (lines rest).modifyHead (c :: ·)
      at member
    rw [split] at member
    split at member
    · rcases List.mem_cons.mp member with rfl | later
      · exact List.not_mem_nil
      · exact ih later
    · next apart =>
      rcases List.mem_cons.mp member with rfl | later
      · rw [List.mem_cons, not_or]
        exact ⟨fun same => apart (beq_iff_eq.mpr same.symm), ih List.mem_cons_self⟩
      · exact ih (List.mem_cons_of_mem _ later)

theorem LineAt.not_mem_lineFeed (lineAt : LineAt text index line) : '\n' ∉ line := by
  cases lineAt with
  | returned found _ =>
    intro member
    exact lineFeed_not_mem_of_mem_lines (List.mem_of_getElem? found)
      (List.mem_append_left _ member)
  | plain found _ => exact lineFeed_not_mem_of_mem_lines (List.mem_of_getElem? found)

theorem LineAt.exists_rest (lineAt : LineAt text index line)
    (found : (lines text)[index]? = some (before ++ own ++ after)) (nonempty : own ≠ [])
    (plain : ∀ c ∈ own, isSeparator c = false) : ∃ rest, line = before ++ own ++ rest := by
  cases lineAt with
  | plain same _ =>
    rw [found] at same
    exact ⟨after, (Option.some.inj same).symm⟩
  | returned same _ =>
    rw [found, Option.some_inj] at same
    rcases List.eq_nil_or_concat after with rfl | ⟨rest, last, rfl⟩
    · -- The run would end in the return.
      rw [List.append_nil] at same
      have ends : own.getLast? = some '\r' := by
        rw [← List.getLast?_append_of_ne_nil before nonempty, same, List.getLast?_concat]
      have solid := plain '\r' (List.mem_of_getLast? ends)
      exact absurd solid (by decide)
    · rw [List.concat_eq_append, ← List.append_assoc] at same
      exact ⟨rest, (List.append_inj_left' same rfl).symm⟩

theorem length_le_byteLength (text : List Char) : text.length ≤ byteLength text := by
  induction text with
  | nil => exact Nat.le_refl _
  | cons c rest ih =>
    rw [List.length_cons, byteLength_cons, Nat.add_comm]
    exact Nat.add_le_add c.utf8Size_pos ih

/-- A text has as many bytes as characters just if all of it is of ASCII. -/
theorem byteLength_eq_length_iff (text : List Char) :
    byteLength text = text.length ↔ ∀ c ∈ text, c.toNat < 128 := by
  induction text with
  | nil => simp
  | cons c rest ih =>
    have single : c.utf8Size = 1 ↔ c.toNat < 128 := by
      rw [Char.utf8Size_eq_one_iff, UInt32.le_iff_toNat_le]
      exact Nat.lt_succ_iff.symm
    have wide := c.utf8Size_pos
    have least := length_le_byteLength rest
    rw [List.forall_mem_cons, ← single, byteLength_cons, List.length_cons]
    constructor
    · intro same
      exact ⟨by omega, ih.mp (by omega)⟩
    · rintro ⟨one, plain⟩
      rw [one, ih.mpr plain, Nat.add_comm]

end Source

namespace Diagnostic

variable {text raw line : List Char} {index number indent other : Nat} {report : String}

theorem displayLines_eq (text : List Char) : ∃ ended last, lines text = ended ++ [last] ∧
    displayLines text = ended.map dropReturn ++ if last = [] then [] else [last] := by
  obtain ⟨ended, last, split⟩ := List.eq_nil_or_concat (lines text) |>.resolve_left
    (List.splitOn_ne_nil '\n' text)
  rw [List.concat_eq_append] at split
  refine ⟨ended, last, split, ?_⟩
  unfold displayLines
  dsimp only
  rw [split, List.dropLast_concat, List.getLast?_concat]
  cases last <;> simp

theorem lineAt_dropReturn (found : (lines text)[index]? = some raw)
    (ended : index + 1 < (lines text).length) : LineAt text index (dropReturn raw) := by
  rw [dropReturn]
  split
  · next returned =>
    obtain ⟨line, rfl⟩ := List.getLast?_eq_some_iff.mp returned
    rw [List.dropLast_concat]
    exact .returned found ended
  · next bare => exact .plain found fun returned => absurd returned bare

/-- A line that is not empty is displayed without its end. -/
theorem exists_lineAt (found : (lines text)[index]? = some raw) (solid : raw ≠ []) :
    ∃ line, (displayLines text)[index]? = some line ∧ LineAt text index line := by
  obtain ⟨ended, last, split, display⟩ := displayLines_eq text
  have size : (lines text).length = ended.length + 1 := by rw [split, List.length_append]; rfl
  have bound := (List.getElem?_eq_some_iff.mp found).1
  rcases Nat.lt_or_ge index ended.length with inside | outside
  · have own : ended[index]? = some raw := by
      rw [split, List.getElem?_append_left inside] at found
      exact found
    refine ⟨dropReturn raw, ?_, lineAt_dropReturn found (by omega)⟩
    rw [display, List.getElem?_append_left (by rwa [List.length_map]), List.getElem?_map, own]
    rfl
  · obtain rfl : index = ended.length := by omega
    obtain rfl : last = raw := by
      rw [split, List.getElem?_concat_length] at found
      exact Option.some.inj found
    refine ⟨last, ?_, .plain found fun _ => size.symm⟩
    rw [display, if_neg solid, ← List.length_map dropReturn, List.getElem?_concat_length]

/-- The blanks in front of the bar where there is no line number. -/
def gutter (number : Nat) : List Char :=
  List.replicate (Numeral.digits 10 number).length ' '

/-- A report ends in a gutter without a line, a line behind its number, and a caret behind blanks. -/
def Shows (report : String) (number : Nat) (line : List Char) (indent : Nat) : Prop :=
  ∃ earlier, lines report.toList = earlier ++
    [gutter number ++ [' ', '|'], Numeral.digits 10 number ++ [' ', '|', ' '] ++ line,
      gutter number ++ [' ', '|', ' '] ++ List.replicate indent ' ' ++ ['^']]

/-- A report has its caret in one place. -/
theorem Shows.indent_eq (caret : Shows report number line indent)
    (also : Shows report number line other) : indent = other := by
  obtain ⟨earlier, split⟩ := caret
  obtain ⟨before, same⟩ := also
  obtain ⟨-, last⟩ := List.append_inj' (split.symm.trans same) rfl
  simpa using last

theorem lineFeed_not_mem_digits : '\n' ∉ Numeral.digits 10 number := by
  intro member
  exact absurd (isDigit_of_mem_digits member) (by decide)

theorem shows_render {path source message : String} {location : Location}
    (shown : (displayLines source.toList)[location.line - 1]? = some line)
    (flat : '\n' ∉ line) :
    Shows (render path source (some location) message) location.line line location.column := by
  refine ⟨lines (path ++ ": " ++ message).toList, ?_⟩
  have plain := @lineFeed_not_mem_digits location.line
  rw [toList_render shown, lines_append, lines_append, lines_append]
  congr 1
  simp only [lines]
  rw [List.splitOn_eq_singleton, List.splitOn_eq_singleton, List.splitOn_eq_singleton]
  · rfl
  all_goals simp [plain, flat]

/-- The caret of a report stands behind as many blanks as there are bytes in front of the field that
the error speaks of. It stands below the first character of that field just if these are all of
ASCII. -/
theorem shows_of_assemble {table : Table} {base : UInt16} {source : String} {error : AssemblyError}
    (path : String) (failed : Program.assemble table base source = .error error) :
    ∃ field index before after,
      error.PointsAt table source field ∧ field.location = ⟨index + 1, byteLength before⟩ ∧
      LineAt source.toList index (before ++ field.text.toList ++ after) ∧
      Shows (render path source error.location? error.message) (index + 1)
        (before ++ field.text.toList ++ after) (byteLength before) ∧
      (Shows (render path source error.location? error.message) (index + 1)
          (before ++ field.text.toList ++ after) before.length ↔ ∀ c ∈ before, c.toNat < 128) := by
  obtain ⟨field, points⟩ := Program.exists_pointsAt failed
  obtain ⟨index, raw, before, behind, found, split, run, place⟩ := points.standing
  obtain ⟨comment, whole⟩ := (splitComment_code raw).2
  rw [split, List.append_assoc] at whole
  subst whole
  have solid : before ++ field.text.toList ++ (behind ++ comment) ≠ [] := by
    simp [run.nonempty]
  obtain ⟨line, shown, lineAt⟩ := exists_lineAt found solid
  obtain ⟨after, rfl⟩ := lineAt.exists_rest found run.nonempty run.plain
  have caret : Shows (render path source error.location? error.message) (index + 1)
      (before ++ field.text.toList ++ after) (byteLength before) := by
    rw [points.located, place]
    exact shows_render shown lineAt.not_mem_lineFeed
  refine ⟨field, index, before, after, points, place, lineAt, caret, ?_⟩
  rw [← byteLength_eq_length_iff]
  constructor
  · exact fun other => caret.indent_eq other
  · intro same
    rw [← same]
    exact caret

/-- A second line that ends in a carriage return and a line feed. -/
theorem shows_of_assemble_returned :
    Program.assemble Table.standard 0x200 "HLT\r\n  JMP .end\r\n" =
        .error ⟨⟨2, 6⟩, .undefinedLabel "end"⟩ ∧
      Shows (render "p.s" "HLT\r\n  JMP .end\r\n" (some ⟨2, 6⟩)
        (AssemblyError.message ⟨⟨2, 6⟩, .undefinedLabel "end"⟩)) 2 "  JMP .end".toList 6 := by
  refine ⟨rfl, ?_⟩
  obtain ⟨field, index, before, after, points, place, lineAt, caret, -⟩ :=
    @shows_of_assemble Table.standard 0x200 "HLT\r\n  JMP .end\r\n"
      ⟨⟨2, 6⟩, .undefinedLabel "end"⟩ "p.s" rfl
  have here := Option.some.inj points.located
  rw [place] at here
  obtain ⟨rfl, column⟩ : index = 1 ∧ byteLength before = 6 := by
    simpa [eq_comm] using here
  rw [column] at caret
  generalize before ++ field.text.toList ++ after = line at lineAt caret
  cases lineAt with
  | returned found _ =>
    obtain rfl : line = "  JMP .end".toList :=
      List.append_inj_left' (Option.some.inj (found.symm.trans rfl)) rfl
    exact caret
  | plain found bare =>
    obtain rfl : line = "  JMP .end\r".toList := Option.some.inj (found.symm.trans rfl)
    exact absurd (bare rfl) (by decide)

/-- A blank of two bytes stands in front of the field, and the caret stands one character too far to
the right. -/
theorem misses_noBreak :
    Program.assemble Table.standard 0x200 "\u00a0JMP .end" =
        .error ⟨⟨1, 6⟩, .undefinedLabel "end"⟩ ∧
      ¬∃ field index before after,
        AssemblyError.PointsAt Table.standard "\u00a0JMP .end" ⟨⟨1, 6⟩, .undefinedLabel "end"⟩
          field ∧
        field.location = ⟨index + 1, byteLength before⟩ ∧
        LineAt "\u00a0JMP .end".toList index (before ++ field.text.toList ++ after) ∧
        Shows (render "p.s" "\u00a0JMP .end" (some ⟨1, 6⟩)
            (AssemblyError.message ⟨⟨1, 6⟩, .undefinedLabel "end"⟩)) (index + 1)
          (before ++ field.text.toList ++ after) before.length := by
  refine ⟨rfl, ?_⟩
  rintro ⟨field, index, before, after, points, place, lineAt, caret⟩
  have here := Option.some.inj points.located
  rw [place] at here
  obtain ⟨rfl, column⟩ : index = 0 ∧ byteLength before = 6 := by
    simpa [eq_comm] using here
  have whole : before ++ field.text.toList ++ after = "\u00a0JMP .end".toList := by
    generalize before ++ field.text.toList ++ after = line at lineAt
    cases lineAt with
    | returned found ended => exact absurd ended (by decide)
    | plain found bare => exact Option.some.inj (found.symm.trans rfl)
  rw [whole] at caret
  have shown : (displayLines "\u00a0JMP .end".toList)[0]? =
      some "\u00a0JMP .end".toList := rfl
  have size : 6 = before.length :=
    (@shows_render _ _ _ _ ⟨1, 6⟩ shown (by decide)).indent_eq caret
  have plain := (byteLength_eq_length_iff before).mp (column.trans size)
  cases before with
  | nil => cases size
  | cons c rest =>
    obtain rfl : c = '\u00a0' := Option.some.inj ((congrArg List.head? whole).trans rfl)
    exact absurd (plain '\u00a0' List.mem_cons_self) (by decide)

end Diagnostic

end Tetrad
