import Tetrad.Operand.Resolve
import Tetrad.Proofs.Operand.Language

/-!
# No text belongs to two grammars

The marks of a text leave one mode whose shapes it can write (`Mode.ofMarks`). So at most one
grammar reads it, the shape that is read is the one that is written (`Shape.read?_eq_some_iff`), and
an operand resolves to the same whatever the order in which the grammars are tried
(`Operand.resolveBy_perm`).
-/

namespace Tetrad

variable {text : List Char} {c : Char}

theorem head?_ne_of_not_mem (absent : c ∉ text) : text.head? ≠ some c :=
  fun starts => absent (List.mem_of_head? starts)

theorem toLower_of_isDigit (digit : c.isDigit = true) : c.toLower = c := by
  have range : '0'.toNat ≤ c.toNat ∧ c.toNat ≤ '9'.toNat := Char.isDigit_iff_toNat.mp digit
  have nine : '9'.toNat = 57 := rfl
  rw [← Char.toNat_inj, toNat_toLower, if_neg (by omega)]

theorem isDigit_of_map_toLower {first : Char} {rest : List Char} (other : first.isDigit = false)
    (spelled : text.map Char.toLower = first :: rest) : text.head?.any Char.isDigit = false := by
  obtain ⟨own, others, rfl, lower, -⟩ := List.map_eq_cons_iff.mp spelled
  by_contra digit
  rw [Bool.not_eq_false, List.head?_cons, Option.any_some] at digit
  rw [← lower, toLower_of_isDigit digit, digit] at other
  cases other

theorem IsRegister.first_not_digit {name : RegisterName} (named : IsRegister text name) :
    text.head?.any Char.isDigit = false := by
  cases named with
  | sigil => rfl
  | bare named =>
    cases named with
    | zero spelled | sp spelled | cmp spelled => exact isDigit_of_map_toLower rfl spelled
    | numbered marked => rcases marked with rfl | rfl <;> rfl

namespace Mode

/-- The only mode whose shapes a text can write, as its marks tell. -/
def ofMarks (text : List Char) : Mode :=
  if text.head? = some '#' then
    if text.tail.head? = some '(' then pcRelative else immediate
  else if text.head? = some '(' then
    -- A sigil or a letter after the parenthesis starts a register.
    if text.tail.head? = some '.' ∨ text.tail.head?.any Char.isDigit then indirect
    else registerIndirect
  else if text.head? = some '.' then label
  else if text.head? = some '[' then direct
  -- Without one of these marks in front, numbers and registers stand alone or in a sum.
  else if '*' ∈ text then indexedScaled
  else if '+' ∈ text then registerRelative
  else if text.head?.any Char.isDigit then direct
  else register

/-- A text that starts with a digit is a number alone, a sum or a sum with a product. -/
theorem ofMarks_of_isDigit {first : Char} {rest : List Char} (digit : first.isDigit = true) :
    ofMarks (first :: rest) =
      if '*' ∈ rest then indexedScaled else if '+' ∈ rest then registerRelative else direct := by
  have apart : ∀ mark, mark.isDigit = false → first ≠ mark := by
    rintro mark other rfl
    rw [digit] at other
    cases other
  have product : '*' ≠ first := (apart '*' rfl).symm
  have sum : '+' ≠ first := (apart '+' rfl).symm
  simp [ofMarks, apart '#' rfl, apart '(' rfl, apart '.' rfl, apart '[' rfl, product, sum, digit]

theorem ofMarks_of_written {shape : Shape} (written : shape.Written text) :
    ofMarks text = shape.mode := by
  cases written with
  | @immediate rest value number =>
    have plain : rest.head? ≠ some '(' := head?_ne_of_not_mem (number.not_mem rfl)
    simp [ofMarks, Shape.mode, plain]
  | direct number =>
    obtain ⟨first, rest, rfl, digit⟩ := number.exists_first
    have product : '*' ∉ first :: rest := number.not_mem rfl
    have sum : '+' ∉ first :: rest := number.not_mem rfl
    rw [ofMarks_of_isDigit digit, if_neg fun member => product (List.mem_cons_of_mem first member),
      if_neg fun member => sum (List.mem_cons_of_mem first member)]
    rfl
  | bracketed => simp [ofMarks, Shape.mode]
  | indirect number =>
    obtain ⟨first, rest, rfl, digit⟩ := number.exists_first
    simp [ofMarks, Shape.mode, digit]
  | indirectLabel => simp [ofMarks, Shape.mode]
  | @register _ name named =>
    have plain : ∀ mark, mark.isAlphanum = false → mark ≠ '$' → text.head? ≠ some mark :=
      fun mark other apart => head?_ne_of_not_mem (named.not_mem other apart)
    have product : '*' ∉ text := named.not_mem rfl (by decide)
    have sum : '+' ∉ text := named.not_mem rfl (by decide)
    simp [ofMarks, Shape.mode, plain '#' rfl (by decide), plain '(' rfl (by decide),
      plain '.' rfl (by decide), plain '[' rfl (by decide), product, sum, named.first_not_digit]
  | @registerIndirect inner name named =>
    have dot : inner.head? ≠ some '.' := head?_ne_of_not_mem (named.not_mem rfl (by decide))
    have letter := named.first_not_digit
    cases inner with
    | nil => rfl
    | cons first rest =>
      rw [List.head?_cons, ne_eq, Option.some_inj] at dot
      rw [List.head?_cons, Option.any_some] at letter
      simp [ofMarks, Shape.mode, dot, letter]
  | @registerRelative before after offset name number named =>
    obtain ⟨first, rest, rfl, digit⟩ := number.exists_first
    have before : '*' ∉ first :: rest := number.not_mem rfl
    have behind : '*' ∉ after := named.not_mem rfl (by decide)
    rw [List.mem_cons, not_or] at before
    rw [List.cons_append, ofMarks_of_isDigit digit]
    simp [Shape.mode, before.2, behind]
  | indexedScaled number times named =>
    obtain ⟨first, rest, rfl, digit⟩ := number.exists_first
    rw [List.cons_append, ofMarks_of_isDigit digit]
    simp [Shape.mode]
  | pcRelative => simp [ofMarks, Shape.mode]
  | label => simp [ofMarks, Shape.mode]

theorem ofMarks_of_grammar {mode : Mode} {shape : Shape} (found : mode.grammar text = some shape) :
    ofMarks text = mode := by
  obtain ⟨written, rfl⟩ := grammar_eq_some_iff.mp found
  exact ofMarks_of_written written

/-- No text belongs to the grammars of two modes. -/
theorem grammar_eq_none_or {one other : Mode} (apart : one ≠ other) (text : List Char) :
    one.grammar text = none ∨ other.grammar text = none := by
  cases first : one.grammar text with
  | none => exact .inl rfl
  | some shape =>
    refine .inr (Option.eq_none_iff_forall_ne_some.mpr fun rival second => apart ?_)
    rw [← ofMarks_of_grammar first, ofMarks_of_grammar second]

end Mode

namespace Shape

variable {shape other : Shape}

theorem exists_grammar (found : read? text = some shape) :
    ∃ mode : Mode, mode.grammar text = some shape := by
  obtain ⟨grammar, member, own⟩ := List.exists_of_findSome?_eq_some found
  rw [← Mode.map_grammar_all] at member
  obtain ⟨mode, -, rfl⟩ := List.mem_map.mp member
  exact ⟨mode, own⟩

theorem read?_eq_some_iff : read? text = some shape ↔ shape.Written text := by
  constructor
  · intro found
    obtain ⟨mode, own⟩ := exists_grammar found
    exact (Mode.grammar_eq_some_iff.mp own).1
  · intro written
    have own : shape.mode.grammar text = some shape := Mode.grammar_of_written written
    have member : shape.mode.grammar ∈ grammars := List.mem_map_of_mem (Mode.mem_all shape.mode)
    cases found : read? text with
    | none =>
      rw [List.findSome?_eq_none_iff.mp found _ member] at own
      cases own
    | some rival =>
      obtain ⟨mode, same⟩ := exists_grammar found
      rw [← Mode.ofMarks_of_grammar same, Mode.ofMarks_of_grammar own, own] at same
      exact same.symm

/-- A text writes one shape at most. -/
theorem Written.unique (one : shape.Written text) (rival : other.Written text) : shape = other :=
  Option.some.inj ((read?_eq_some_iff.mpr one).symm.trans (read?_eq_some_iff.mpr rival))

end Shape

/-- Where no two members of a list give an answer, its first answer does not depend on the order. -/
theorem findSome?_perm {α β : Type} {f : α → Option β} {items others : List α}
    (perm : items.Perm others) (apart : items.Pairwise fun a b => f a = none ∨ f b = none) :
    items.findSome? f = others.findSome? f := by
  induction perm with
  | nil => rfl
  | cons first _ ih => rw [List.findSome?_cons, List.findSome?_cons, ih apart.tail]
  | swap first second rest =>
    rcases List.rel_of_pairwise_cons apart List.mem_cons_self with none_of | none_of
    · simp only [List.findSome?_cons, none_of]
    · simp only [List.findSome?_cons, none_of]
  | trans one _ ihOne ihTwo =>
    have apartToo := (one.pairwise_iff fun own => own.symm).mp apart
    rw [ihOne apart, ihTwo apartToo]

theorem Shape.grammars_pairwise (text : List Char) :
    grammars.Pairwise fun one other => one text = none ∨ other text = none := by
  have distinct : Mode.all.Nodup := by decide
  rw [← Mode.map_grammar_all, List.pairwise_map]
  exact distinct.imp fun apart => Mode.grammar_eq_none_or apart text

namespace Operand

/-- The operand that a text writes where the grammars are tried in the given order. -/
def resolveBy (order : List (List Char → Option Shape)) (text : String) :
    Except ResolveError Operand :=
  match order.findSome? (· text.toList) with
  | none => .error .unrecognized
  | some shape => shape.resolve

/-- At most one grammar reads a text, whatever its numbers come to, so the order in which the
grammars are tried does not matter. -/
theorem resolveBy_perm (text : String) :
    (Shape.grammars.Pairwise fun one other =>
      one text.toList = none ∨ other text.toList = none) ∧
    ∀ order : List (List Char → Option Shape), order.Perm Shape.grammars →
      resolveBy order text = resolve text := by
  have exclusive := Shape.grammars_pairwise text.toList
  refine ⟨exclusive, fun order perm => ?_⟩
  have same := findSome?_perm perm.symm exclusive
  rw [resolveBy, ← same]
  rfl

/-- A number that is too large is refused by the one grammar that reads its text, even where that
grammar comes before the one for the same first mark. -/
theorem resolveBy_perm_reverse :
    resolveBy Shape.grammars.reverse "#(70000)" = .error .valueOutOfRange := by
  rw [(resolveBy_perm "#(70000)").2 _ (List.reverse_perm _)]
  decide +kernel

end Operand

end Tetrad
