import Mathlib.Data.List.Nodup
import Tetrad.Proofs.Source.Fields
import Tetrad.Source.Token

/-!
# Tokens keep their source

The tokens of a line cover it (`Token.Covers`): each stands at its column, one behind the other, and
what stands between them is blank. The fields among them are the runs in front of the comment, and
only the first run of a line can be a label or a mnemonic (`Token.exists_run_of_mem_tokenize`). Of a
whole source, tokens lose nothing and invent nothing (`Token.lossless_tokenize`).
-/

namespace Tetrad

open Source

/-- A text stands in a line of the source at this place, after some characters of the line and
before the others. -/
def Source.StandsAt (source : String) (place : Location) (before text after : List Char) : Prop :=
  ∃ index, (lines source.toList)[index]? = some (before ++ text ++ after) ∧
    place = ⟨index + 1, byteLength before⟩

namespace Token

/-- The text of a token as it stands in its line, with the dot of a label and the slashes of a
comment. -/
def raw (token : Token) : List Char :=
  match token.kind with
  | .label => '.' :: token.text.toList
  | .comment => '/' :: '/' :: token.text.toList
  | _ => token.text.toList

/-- The first token stands before the second, and they share no byte. -/
def Before (a b : Token) : Prop :=
  a.location.line < b.location.line ∨ a.location.line = b.location.line ∧
    a.location.column < b.location.column ∧
    a.location.column + byteLength a.raw ≤ b.location.column

/-- The bytes from a place on, as many as given, belong to the token. -/
def Spans (token : Token) (place : Location) (size : Nat) : Prop :=
  token.location.line = place.line ∧ token.location.column ≤ place.column ∧
    place.column + size ≤ token.location.column + byteLength token.raw

/-- Tokens cover a text that starts at a column of a line: each stands where it says, and what
stands between them is blank. -/
inductive Covers (number : Nat) : Nat → List Char → List Token → Prop
  | done {column : Nat} : Covers number column [] []
  | blank {column : Nat} {c : Char} {text : List Char} {tokens : List Token}
      (skipped : isBlank c = true) (later : Covers number (column + c.utf8Size) text tokens) :
      Covers number column (c :: text) tokens
  | token {column : Nat} {own : Token} {text : List Char} {tokens : List Token}
      (here : own.location = ⟨number, column⟩) (solid : own.raw ≠ [])
      (later : Covers number (column + byteLength own.raw) text tokens) :
      Covers number column (own.raw ++ text) (own :: tokens)

section

variable {number column : Nat} {text other before after : List Char} {tokens others : List Token}
  {c : Char}

theorem Covers.append (covers : Covers number column text tokens)
    (later : Covers number (column + byteLength text) other others) :
    Covers number column (text ++ other) (tokens ++ others) := by
  induction covers with
  | done => exact later
  | blank skipped _ ih =>
    rw [byteLength_cons, ← Nat.add_assoc] at later
    exact .blank skipped (ih later)
  | token here solid _ ih =>
    rw [byteLength_append, ← Nat.add_assoc] at later
    rw [List.append_assoc]
    exact .token here solid (ih later)

theorem covers_blanks (blank : ∀ c ∈ text, isBlank c = true) : Covers number column text [] := by
  induction text generalizing column with
  | nil => exact .done
  | cons c rest ih =>
    obtain ⟨first, blank⟩ := List.forall_mem_cons.mp blank
    exact .blank first (ih blank)

theorem Covers.stands (covers : Covers number column text tokens) : ∀ token ∈ tokens,
    token.raw ≠ [] ∧ ∃ before after, text = before ++ token.raw ++ after ∧
      token.location = ⟨number, column + byteLength before⟩ := by
  induction covers with
  | done => simp
  | @blank _ c _ _ _ _ ih =>
    intro token member
    obtain ⟨solid, before, after, rfl, here⟩ := ih token member
    exact ⟨solid, c :: before, after, by simp, by simp [here, Nat.add_assoc]⟩
  | @token _ own text _ here solid _ ih =>
    intro token member
    rcases List.mem_cons.mp member with rfl | member
    · exact ⟨solid, [], text, by simp, by simp [here]⟩
    · obtain ⟨nonempty, before, after, rfl, place⟩ := ih token member
      exact ⟨nonempty, own.raw ++ before, after, by simp, by simp [place, Nat.add_assoc]⟩

theorem Covers.ordered (covers : Covers number column text tokens) : tokens.Pairwise Before := by
  induction covers with
  | done => exact .nil
  | blank _ _ ih => exact ih
  | @token column own _ _ here solid later ih =>
    refine List.pairwise_cons.mpr ⟨?_, ih⟩
    intro token member
    obtain ⟨-, before, after, -, place⟩ := later.stands token member
    have wide := byteLength_pos solid
    refine .inr ?_
    rw [here, place]
    dsimp only
    omega

theorem Covers.blank_or_spans (covers : Covers number column text tokens)
    (whole : text = before ++ c :: after) : isBlank c = true ∨ ∃ token ∈ tokens,
      token.Spans ⟨number, column + byteLength before⟩ c.utf8Size := by
  induction covers generalizing before with
  | done => simp at whole
  | blank skipped _ ih =>
    cases before with
    | nil =>
      cases whole
      exact .inl skipped
    | cons first before =>
      cases whole
      rw [byteLength_cons, ← Nat.add_assoc]
      exact ih rfl
  | @token column own text tokens here solid later ih =>
    rcases List.append_eq_append_iff.mp whole with ⟨between, rfl, rest⟩ | ⟨inside, own_eq, rest⟩
    · -- The character stands behind the first token.
      rw [byteLength_append, ← Nat.add_assoc]
      refine (ih rest).imp_right ?_
      rintro ⟨token, member, spans⟩
      exact ⟨token, List.mem_cons_of_mem _ member, spans⟩
    · cases inside with
      | nil =>
        rw [List.nil_append] at rest
        have same : byteLength before = byteLength own.raw := by rw [own_eq, List.append_nil]
        rw [same]
        refine (@ih [] rest.symm).imp_right ?_
        rintro ⟨token, member, spans⟩
        exact ⟨token, List.mem_cons_of_mem _ member, spans⟩
      | cons first inside =>
        cases rest
        refine .inr ⟨own, List.mem_cons_self, ?_⟩
        simp [Spans, here, own_eq]
        omega

end

section

variable {table : Table} {number column : Nat} {location : Location} {text : List Char}
  {first : Bool} {found : List Piece} {token : Token}

theorem raw_ofField : (ofField table first location text).raw = text := by
  unfold ofField
  dsimp only
  split
  · simp [raw]
  · split <;> simp [raw]
  · simp [raw]

theorem location_ofField : (ofField table first location text).location = location := by
  unfold ofField
  split <;> rfl

theorem isSignificant_ofField (table : Table) (first : Bool) (location : Location)
    (text : List Char) : (ofField table first location text).kind.isSignificant = true := by
  unfold ofField
  dsimp only
  split
  · rfl
  · split <;> rfl
  · rfl

/-- Only the first field of a line is more than a value, and a mnemonic is one of the table. -/
theorem kind_ofField_ne_value (other : (ofField table first location text).kind ≠ .value) :
    first = true ∧ ((ofField table first location text).kind = .instruction →
      (table.lookup? (ofField table first location text).text).isSome = true) := by
  revert other
  unfold ofField
  dsimp only
  split
  · simp
  · split
    · next known => simp [known]
    · simp
  · simp

theorem covers_ofPieces (table : Table) (number : Nat) (first : Bool)
    (cut : Cut column text found) :
    Covers number column text (ofPieces table number first found) := by
  induction cut generalizing first with
  | done => exact .done
  | blank skipped _ ih => exact .blank skipped (ih first)
  | @comma column _ _ _ ih =>
    have own : (Token.mk .comma "," ⟨number, column⟩).raw = [','] := by simp [raw]
    have later := ih first
    have size : column + 1 = column + byteLength (Token.mk .comma "," ⟨number, column⟩).raw := by
      rw [own]
      rfl
    rw [size] at later
    have covered := Covers.token rfl (by rw [own]; simp) later
    rw [own] at covered
    exact covered
  | @field column own _ found nonempty _ _ _ ih =>
    have later := ih false
    have same : (ofField table first ⟨number, column⟩ own).raw = own := raw_ofField
    rw [← same] at later nonempty
    have covered : Covers number column _ _ := .token location_ofField nonempty later
    rw [same] at covered
    exact covered

/-- The tokens of pieces are commas and fields, and a field is the first if only commas are found
before it. -/
theorem mem_ofPieces (member : token ∈ ofPieces table number first found) : token.kind = .comma ∨
    ∃ earlier column own later, found = earlier ++ .field column own :: later ∧
      token = ofField table (first && earlier.all Piece.isComma) ⟨number, column⟩ own := by
  induction found generalizing first with
  | nil => cases member
  | cons piece rest ih =>
    cases piece with
    | comma column =>
      rcases List.mem_cons.mp member with rfl | member
      · exact .inl rfl
      · refine (ih member).imp_right ?_
        rintro ⟨earlier, start, own, later, rfl, same⟩
        exact ⟨.comma column :: earlier, start, own, later, rfl, same⟩
    | field column text =>
      rcases List.mem_cons.mp member with rfl | member
      · exact .inr ⟨[], column, text, rest, rfl, by simp⟩
      · refine (ih member).imp_right ?_
        rintro ⟨earlier, start, own, later, rfl, same⟩
        exact ⟨.field column text :: earlier, start, own, later, rfl, by simp [same, Piece.isComma]⟩

end

/-- The token of the comment of a line, without carriage returns at its end. -/
def ofComment? (number : Nat) (line : List Char) : Option Token :=
  (splitComment line).2.map fun body =>
    ⟨.comment, String.ofList (commentText body), ⟨number, byteLength (splitComment line).1⟩⟩

def lineEnd (number : Nat) (line : List Char) : Token :=
  ⟨.newline, "\n", ⟨number, byteLength line⟩⟩

/-- The tokens that stand in a line, its end apart. -/
def within (table : Table) (number : Nat) (line : List Char) : List Token :=
  ofPieces table number true (pieces 0 (splitComment line).1) ++ (ofComment? number line).toList

section

variable {table : Table} {number : Nat} {ended : Bool} {line : List Char} {token : Token}

theorem ofLine_eq : ofLine table number ended line =
    within table number line ++ if ended then [lineEnd number line] else [] := by
  unfold ofLine within ofComment? lineEnd
  obtain ⟨code, comment⟩ := splitComment line
  cases comment <;> rfl

theorem splitComment_eq (line : List Char) :
    line = (splitComment line).1 ++ ((splitComment line).2.map ('/' :: '/' :: ·)).getD [] := by
  fun_induction splitComment line with
  | case1 => rfl
  | case2 comment => rfl
  | case3 c rest starts_none code comment cut ih =>
    rw [cut] at ih
    exact congrArg (c :: ·) ih

/-- What is cut from the end of a comment is blank. -/
theorem commentText_append (body : List Char) :
    ∃ returns, body = commentText body ++ returns ∧ ∀ c ∈ returns, isBlank c = true := by
  refine ⟨(body.reverse.takeWhile (· == '\r')).reverse, ?_, ?_⟩
  · rw [commentText, ← List.reverse_append, List.takeWhile_append_dropWhile, List.reverse_reverse]
  · intro c member
    have carriage := List.all_takeWhile (l := body.reverse) (p := (· == '\r'))
    rw [eq_of_beq (List.all_eq_true.mp carriage c (List.mem_reverse.mp member))]
    decide

theorem covers_ofComment? (number : Nat) (line : List Char) :
    Covers number (byteLength (splitComment line).1)
      (((splitComment line).2.map ('/' :: '/' :: ·)).getD []) (ofComment? number line).toList := by
  unfold ofComment?
  cases (splitComment line).2 with
  | none => exact .done
  | some body =>
    obtain ⟨returns, whole, blank⟩ := commentText_append body
    let comment : Token :=
      ⟨.comment, String.ofList (commentText body), ⟨number, byteLength (splitComment line).1⟩⟩
    have own : comment.raw = '/' :: '/' :: commentText body := by simp [comment, raw]
    have solid : comment.raw ≠ [] := by simp [own]
    have covered : Covers number _ (comment.raw ++ returns) [comment] :=
      .token rfl solid (covers_blanks blank)
    rw [own, List.cons_append, List.cons_append, ← whole] at covered
    exact covered

theorem covers_within (table : Table) (number : Nat) (line : List Char) :
    Covers number 0 line (within table number line) := by
  have code := covers_ofPieces table number true (cut_pieces 0 (splitComment line).1)
  have comment := covers_ofComment? number line
  rw [← Nat.zero_add (byteLength _)] at comment
  have whole := code.append comment
  rw [← splitComment_eq] at whole
  exact whole

theorem kind_ne_of_mem_within (member : token ∈ within table number line) :
    token.kind ≠ .newline := by
  rcases List.mem_append.mp member with inCode | inComment
  · rcases mem_ofPieces inCode with comma | ⟨earlier, column, own, later, -, same⟩
    · simp [comma]
    · intro ends
      have significant := isSignificant_ofField table (true && earlier.all Piece.isComma)
        ⟨number, column⟩ own
      rw [← same, ends] at significant
      cases significant
  · obtain ⟨body, -, rfl⟩ := Option.map_eq_some_iff.mp (Option.mem_toList.mp inComment)
    simp

theorem ordered_ofLine : (ofLine table number ended line).Pairwise Before := by
  rw [ofLine_eq]
  have covers := covers_within table number line
  refine List.pairwise_append.mpr ⟨covers.ordered, by split <;> simp, ?_⟩
  intro token member last inEnd
  have same : last = lineEnd number line := by
    split at inEnd
    · exact List.mem_singleton.mp inEnd
    · cases inEnd
  obtain ⟨solid, before, after, whole, here⟩ := covers.stands token member
  have wide := byteLength_pos solid
  have total := congrArg byteLength whole
  refine .inr ?_
  simp [same, here, lineEnd] at total ⊢
  omega

theorem line_of_mem_ofLine (member : token ∈ ofLine table number ended line) :
    token.location.line = number := by
  rw [ofLine_eq] at member
  rcases List.mem_append.mp member with inside | last
  · obtain ⟨-, before, after, -, here⟩ := (covers_within table number line).stands token inside
    rw [here]
  · split at last
    · rw [List.mem_singleton.mp last]
      rfl
    · cases last

end

end Token

namespace Source

theorem mem_numbered {source : String} {line : List Char} {number : Nat} :
    (line, number) ∈ numbered source ↔
      ∃ index, (lines source.toList)[index]? = some line ∧ number = index + 1 := by
  rw [numbered, List.mem_zipIdx_iff_le_and_getElem?_sub]
  constructor
  · rintro ⟨positive, listed⟩
    exact ⟨number - 1, listed, by omega⟩
  · rintro ⟨index, listed, rfl⟩
    exact ⟨Nat.le_add_left 1 index, listed⟩

theorem numbered_ordered (source : String) :
    (numbered source).Pairwise fun a b => a.2 < b.2 := by
  have numbers : ((numbered source).map Prod.snd).Pairwise (· < ·) := by
    rw [numbered, List.zipIdx_map_snd]
    exact List.pairwise_lt_range'
  exact List.pairwise_map.mp numbers

theorem length_lines (text : List Char) : (lines text).length = text.count '\n' + 1 := by
  induction text with
  | nil => rfl
  | cons c rest ih =>
    unfold lines at *
    rw [List.splitOn_cons_eq_if_modifyHead, List.count_cons]
    by_cases feed : c = '\n'
    · simp [feed, ih]
    · simp [feed, ih]

end Source

namespace Token

variable {table : Table} {source : String} {token : Token}

theorem mem_tokenize (member : token ∈ tokenize table source) : ∃ index line ended,
    (lines source.toList)[index]? = some line ∧ token ∈ ofLine table (index + 1) ended line := by
  obtain ⟨⟨line, number⟩, listed, inLine⟩ := List.mem_flatMap.mp member
  obtain ⟨index, found, rfl⟩ := mem_numbered.mp listed
  exact ⟨index, line, _, found, inLine⟩

theorem mem_tokenize_of_mem_within {index : Nat} {line : List Char}
    (found : (lines source.toList)[index]? = some line)
    (member : token ∈ within table (index + 1) line) : token ∈ tokenize table source := by
  refine List.mem_flatMap.mpr ⟨(line, index + 1), mem_numbered.mpr ⟨index, found, rfl⟩, ?_⟩
  dsimp only
  rw [ofLine_eq]
  exact List.mem_append_left _ member

theorem ordered_tokenize (table : Table) (source : String) :
    (tokenize table source).Pairwise Before := by
  refine List.pairwise_flatMap.mpr ⟨fun entry _ => ordered_ofLine, ?_⟩
  refine (numbered_ordered source).imp ?_
  intro a b order first inFirst second inSecond
  refine .inl ?_
  rw [line_of_mem_ofLine inFirst, line_of_mem_ofLine inSecond]
  exact order

/-- A label, mnemonic or value is a run in front of the comment of its line, and is told to be the
first one just if nothing but separators stands before it. -/
theorem exists_run_of_mem_tokenize (member : token ∈ tokenize table source)
    (significant : token.kind.isSignificant = true) : ∃ index line before after,
      (lines source.toList)[index]? = some line ∧
        (splitComment line).1 = before ++ token.raw ++ after ∧ IsRun before token.raw after ∧
        token =
          ofField table (before.all isSeparator) ⟨index + 1, byteLength before⟩ token.raw := by
  obtain ⟨index, line, ended, found, member⟩ := mem_tokenize member
  rw [ofLine_eq] at member
  rcases List.mem_append.mp member with member | last
  · rcases List.mem_append.mp member with inCode | inComment
    · rcases mem_ofPieces inCode with comma | ⟨earlier, column, own, later, listed, same⟩
      · rw [comma] at significant
        cases significant
      · have raw_eq : token.raw = own := by rw [same, raw_ofField]
        obtain ⟨before, after, whole, place, run, first⟩ := (cut_pieces 0 _).exists_run listed
        rw [Nat.zero_add] at place
        rw [Bool.true_and, ← first, place] at same
        refine ⟨index, line, before, after, found, ?_⟩
        rw [raw_eq]
        exact ⟨whole, run, same⟩
    · obtain ⟨body, -, rfl⟩ := Option.map_eq_some_iff.mp (Option.mem_toList.mp inComment)
      cases significant
  · split at last
    · rw [List.mem_singleton.mp last] at significant
      cases significant
    · cases last

theorem filter_newline_tokenize (table : Table) (source : String) :
    (tokenize table source).filter (·.kind == .newline) =
      (numbered source).dropLast.map fun entry => lineEnd entry.2 entry.1 := by
  have each (number : Nat) (ended : Bool) (line : List Char) :
      (ofLine table number ended line).filter (·.kind == .newline) =
        if ended then [lineEnd number line] else [] := by
    have none : (within table number line).filter (·.kind == .newline) = [] := by
      refine List.filter_eq_nil_iff.mpr ?_
      intro token member
      simp [kind_ne_of_mem_within member]
    rw [ofLine_eq, List.filter_append, none]
    cases ended <;> rfl
  obtain ⟨init, last, split⟩ : ∃ init last, lines source.toList = init ++ [last] :=
    ⟨_, _, (List.dropLast_concat_getLast (List.splitOn_ne_nil _ _)).symm⟩
  have entries : numbered source = init.zipIdx 1 ++ [(last, 1 + init.length)] := by
    rw [numbered, split, List.zipIdx_append]
    rfl
  have length : (numbered source).length = 1 + init.length := by
    rw [numbered, List.length_zipIdx, split, List.length_append, Nat.add_comm]
    rfl
  unfold tokenize
  dsimp only
  rw [List.filter_flatMap, length, entries, List.dropLast_concat, List.flatMap_append,
    List.map_eq_flatMap]
  have others : ∀ entry ∈ init.zipIdx 1, (ofLine table entry.2 (entry.2 < 1 + init.length)
      entry.1).filter (·.kind == .newline) = [lineEnd entry.2 entry.1] := by
    intro entry member
    have inside := List.snd_lt_add_of_mem_zipIdx member
    rw [each]
    simp [inside]
  rw [List.flatMap_congr others]
  simp [each]

theorem length_filter_newline_tokenize (table : Table) (source : String) :
    ((tokenize table source).filter (·.kind == .newline)).length = source.toList.count '\n' := by
  rw [filter_newline_tokenize, List.length_map, List.length_dropLast, numbered, List.length_zipIdx,
    length_lines, Nat.add_sub_cancel]

/-- The token says more of its field than that it is a value. -/
def Heads (token : Token) : Prop := token.kind = .label ∨ token.kind = .instruction

theorem exists_first_of_heads (member : token ∈ tokenize table source) (heads : token.Heads) :
    ∃ index line before after, (lines source.toList)[index]? = some line ∧
      (splitComment line).1 = before ++ token.raw ++ after ∧ IsRun before token.raw after ∧
        token.location = ⟨index + 1, byteLength before⟩ ∧ (∀ c ∈ before, isSeparator c = true) ∧
          (token.kind = .instruction → (table.lookup? token.text).isSome = true) := by
  have significant : token.kind.isSignificant = true := by
    rcases heads with kind | kind <;> simp [kind, TokenKind.isSignificant]
  obtain ⟨index, line, before, after, found, whole, run, same⟩ :=
    exists_run_of_mem_tokenize member significant
  have other : token.kind ≠ .value := by rcases heads with kind | kind <;> simp [kind]
  rw [same] at other
  obtain ⟨first, known⟩ := kind_ofField_ne_value other
  rw [← same] at known
  refine ⟨index, line, before, after, found, whole, run, ?_, List.all_eq_true.mp first, known⟩
  rw [same, location_ofField]

/-- What stands before the first run of a text is known from the text. -/
theorem takeWhile_of_isRun {before own after : List Char} (run : IsRun before own after)
    (first : ∀ c ∈ before, isSeparator c = true) :
    (before ++ own ++ after).takeWhile isSeparator = before := by
  obtain ⟨c, rest, rfl⟩ := List.exists_cons_of_ne_nil run.nonempty
  have solid := run.plain c List.mem_cons_self
  rw [List.append_assoc, List.takeWhile_append_of_pos first, List.cons_append,
    List.takeWhile_cons_of_neg (by simp [solid]), List.append_nil]

theorem eq_of_location_eq {a b : Token} (inA : a ∈ tokenize table source)
    (inB : b ∈ tokenize table source) (same : a.location = b.location) : a = b := by
  have distinct : ((tokenize table source).map location).Nodup := by
    refine List.pairwise_map.mpr ((ordered_tokenize table source).imp ?_)
    rintro a b (lines | ⟨-, columns, -⟩) same
    · rw [same] at lines
      exact Nat.lt_irrefl _ lines
    · rw [same] at columns
      exact Nat.lt_irrefl _ columns
  exact List.inj_on_of_nodup_map distinct inA inB same

/-- A token other than a line end stands in its line where it says. -/
theorem standsAt_of_mem_tokenize (member : token ∈ tokenize table source)
    (inside : token.kind ≠ .newline) :
    ∃ before after, StandsAt source token.location before token.raw after := by
  obtain ⟨index, line, ended, found, member⟩ := mem_tokenize member
  rw [ofLine_eq] at member
  rcases List.mem_append.mp member with member | last
  · have covers := covers_within table (index + 1) line
    obtain ⟨-, before, after, rfl, here⟩ := covers.stands token member
    rw [Nat.zero_add] at here
    exact ⟨before, after, index, found, here⟩
  · split at last
    · rw [List.mem_singleton.mp last] at inside
      exact absurd rfl inside
    · cases last

/-- Every character of a source that is not blank belongs to a token. -/
theorem blank_or_spans_of_standsAt {place : Location} {before after : List Char} {c : Char}
    (table : Table) (stands : StandsAt source place before [c] after) : isBlank c = true ∨
      ∃ token ∈ tokenize table source, token.kind ≠ .newline ∧ token.Spans place c.utf8Size := by
  obtain ⟨index, found, rfl⟩ := stands
  rw [List.append_assoc] at found
  have covers := covers_within table (index + 1) (before ++ c :: after)
  rcases covers.blank_or_spans rfl with blank | ⟨token, member, spans⟩
  · exact .inl blank
  · rw [Nat.zero_add] at spans
    have listed := mem_tokenize_of_mem_within found member
    exact .inr ⟨token, listed, kind_ne_of_mem_within member, spans⟩

theorem isWord_raw_of_mem_tokenize (member : token ∈ tokenize table source)
    (significant : token.kind.isSignificant = true) : IsWord token.raw := by
  obtain ⟨index, line, before, after, -, whole, run, -⟩ :=
    exists_run_of_mem_tokenize member significant
  exact run.isWord whole

/-- A line has one label or mnemonic at most, since both are its first run. -/
theorem eq_of_heads {a b : Token} (inA : a ∈ tokenize table source)
    (inB : b ∈ tokenize table source) (headsA : a.Heads) (headsB : b.Heads)
    (same : a.location.line = b.location.line) : a = b := by
  obtain ⟨index, line, before, after, found, whole, run, here, first, -⟩ :=
    exists_first_of_heads inA headsA
  obtain ⟨index', line', before', after', found', whole', run', here', first', -⟩ :=
    exists_first_of_heads inB headsB
  rw [here, here'] at same
  cases same
  cases found.symm.trans found'
  have starts : before = before' := by
    rw [← takeWhile_of_isRun run first, ← whole, whole', takeWhile_of_isRun run' first']
  exact eq_of_location_eq inA inB (by rw [here, here', starts])

/-- What tokens keep of their source: every token stands where it says, in order and apart from the
others, and all that no token spans is blank. There is a line end for each line feed. Labels,
mnemonics and values are fields, and only the first field of a line is a label or a mnemonic. -/
structure Lossless (table : Table) (source : String) (tokens : List Token) : Prop where
  stands : ∀ token ∈ tokens, token.kind ≠ .newline →
    ∃ before after, StandsAt source token.location before token.raw after
  ordered : tokens.Pairwise Before
  spanned : ∀ place before c after, StandsAt source place before [c] after →
    isBlank c = true ∨ ∃ token ∈ tokens, token.kind ≠ .newline ∧ token.Spans place c.utf8Size
  lineEnds : tokens.filter (·.kind == .newline) =
    (numbered source).dropLast.map fun entry => lineEnd entry.2 entry.1
  lineFeeds : (tokens.filter (·.kind == .newline)).length = source.toList.count '\n'
  words : ∀ token ∈ tokens, token.kind.isSignificant = true → IsWord token.raw
  first : ∀ token ∈ tokens, token.Heads → ∃ before after,
    StandsAt source token.location before token.raw after ∧ ∀ c ∈ before, isSeparator c = true
  alone : ∀ a ∈ tokens, ∀ b ∈ tokens, a.Heads → b.Heads → a.location.line = b.location.line → a = b
  mnemonic : ∀ token ∈ tokens, token.kind = .instruction →
    ∃ form ∈ table.forms, sameLetters form.mnemonic token.text = true

/-- The tokens of a source lose nothing of it and invent nothing. -/
theorem lossless_tokenize (table : Table) (source : String) :
    Lossless table source (tokenize table source) where
  stands _ member inside := standsAt_of_mem_tokenize member inside
  ordered := ordered_tokenize table source
  spanned _ _ _ _ stands := blank_or_spans_of_standsAt table stands
  lineEnds := filter_newline_tokenize table source
  lineFeeds := length_filter_newline_tokenize table source
  words _ member significant := isWord_raw_of_mem_tokenize member significant
  first token member heads := by
    obtain ⟨index, line, before, after, found, whole, -, here, first, -⟩ :=
      exists_first_of_heads member heads
    obtain ⟨rest, split⟩ := (splitComment_code line).2
    rw [whole, List.append_assoc] at split
    rw [← split] at found
    exact ⟨before, after ++ rest, ⟨index, found, here⟩, first⟩
  alone _ inA _ inB headsA headsB same := eq_of_heads inA inB headsA headsB same
  mnemonic token member kind := by
    obtain ⟨_, _, _, _, -, -, -, -, -, known⟩ := exists_first_of_heads member (.inr kind)
    obtain ⟨form, found⟩ := Option.isSome_iff_exists.mp (known kind)
    exact ⟨form, Table.mem_of_lookup? found⟩

end Token

end Tetrad
