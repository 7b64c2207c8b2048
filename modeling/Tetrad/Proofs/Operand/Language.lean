import Tetrad.Proofs.Operand.Reading

namespace Tetrad

variable {text : List Char}

namespace Shape

def mode : Shape → Mode
  | immediate _ => .immediate
  | direct _ => .direct
  | indirect _ => .indirect
  | indirectLabel _ => .indirect
  | register _ => .register
  | registerIndirect _ => .registerIndirect
  | registerRelative _ _ => .registerRelative
  | indexedScaled _ _ _ => .indexedScaled
  | pcRelative _ => .pcRelative
  | label _ => .label

/-- The texts that write each shape. -/
inductive Written : List Char → Shape → Prop
  | immediate {text : List Char} {value : Nat} (number : IsNumber text value) :
      Written ('#' :: text) (.immediate value)
  | direct {text : List Char} {address : Nat} (number : IsNumber text address) :
      Written text (.direct address)
  | bracketed {text : List Char} {address : Nat} (number : IsNumber text address) :
      Written ('[' :: (text ++ [']'])) (.direct address)
  | indirect {text : List Char} {address : Nat} (number : IsNumber text address) :
      Written ('(' :: (text ++ [')'])) (.indirect address)
  | indirectLabel {name : List Char} (valid : isLabelName name = true) :
      Written ('(' :: ('.' :: name ++ [')'])) (.indirectLabel name)
  | register {text : List Char} {name : RegisterName} (named : IsRegister text name) :
      Written text (.register name)
  | registerIndirect {text : List Char} {name : RegisterName} (named : IsRegister text name) :
      Written ('(' :: (text ++ [')'])) (.registerIndirect name)
  | registerRelative {before after : List Char} {offset : Nat} {name : RegisterName}
      (number : IsNumber before offset) (named : IsRegister after name) :
      Written (before ++ '+' :: after) (.registerRelative offset name)
  | indexedScaled {before factor after : List Char} {base scale : Nat} {name : RegisterName}
      (number : IsNumber before base) (times : IsNumber factor scale)
      (named : IsRegister after name) :
      Written (before ++ '+' :: (factor ++ '*' :: after)) (.indexedScaled base scale name)
  | pcRelative {text : List Char} {offset : Nat} (number : IsNumber text offset) :
      Written ('#' :: '(' :: (text ++ [')'])) (.pcRelative offset)
  | label {name : List Char} (valid : isLabelName name = true) :
      Written ('.' :: name) (.label name)

/-- The label of a shape is a name, and the text is that label, bare or between parentheses. -/
def LabelIn (text : List Char) : Shape → Prop
  | label name => text = '.' :: name ∧ isLabelName name = true
  | indirectLabel name => text = '(' :: '.' :: (name ++ [')']) ∧ isLabelName name = true
  | _ => True

theorem Written.labelIn {shape : Shape} (written : shape.Written text) : shape.LabelIn text := by
  cases written with
  | indirectLabel valid => exact ⟨rfl, valid⟩
  | label valid => exact ⟨rfl, valid⟩
  | _ => trivial

end Shape

namespace Mode

open Shape

variable {mode : Mode} {shape : Shape}

def grammar : Mode → List Char → Option Shape
  | immediate => immediate?
  | direct => direct?
  | indirect => indirect?
  | register => register?
  | registerIndirect => registerIndirect?
  | registerRelative => registerRelative?
  | indexedScaled => indexedScaled?
  | pcRelative => pcRelative?
  | label => label?

theorem map_grammar_all : all.map grammar = grammars := rfl

theorem written_of_grammar (found : mode.grammar text = some shape) :
    Written text shape ∧ shape.mode = mode := by
  cases mode with
  | immediate =>
    obtain ⟨value, read, rfl⟩ := Option.map_eq_some_iff.mp found
    obtain ⟨rest, marked, read⟩ := Option.bind_eq_some_iff.mp read
    rw [after?_eq_some_iff.mp marked]
    exact ⟨.immediate (readNumber?_eq_some_iff.mp read), rfl⟩
  | direct =>
    obtain ⟨address, read, rfl⟩ := Option.map_eq_some_iff.mp found
    cases between : enclosed? '[' ']' text with
    | none =>
      rw [between, Option.getD_none] at read
      exact ⟨.direct (readNumber?_eq_some_iff.mp read), rfl⟩
    | some inner =>
      rw [between, Option.getD_some] at read
      rw [eq_of_enclosed? between]
      exact ⟨.bracketed (readNumber?_eq_some_iff.mp read), rfl⟩
  | indirect =>
    obtain ⟨inner, between, own⟩ := Option.bind_eq_some_iff.mp found
    rw [eq_of_enclosed? between]
    split at own
    · next address read =>
      cases own
      exact ⟨.indirect (readNumber?_eq_some_iff.mp read), rfl⟩
    · obtain ⟨name, read, rfl⟩ := Option.map_eq_some_iff.mp own
      obtain ⟨rfl, valid⟩ := readLabel?_eq_some_iff.mp read
      exact ⟨.indirectLabel valid, rfl⟩
  | register =>
    obtain ⟨name, read, rfl⟩ := Option.map_eq_some_iff.mp found
    exact ⟨.register (RegisterName.read?_eq_some_iff.mp read), rfl⟩
  | registerIndirect =>
    obtain ⟨name, read, rfl⟩ := Option.map_eq_some_iff.mp found
    obtain ⟨inner, between, read⟩ := Option.bind_eq_some_iff.mp read
    rw [eq_of_enclosed? between]
    exact ⟨.registerIndirect (RegisterName.read?_eq_some_iff.mp read), rfl⟩
  | registerRelative =>
    obtain ⟨⟨before, after⟩, sum, own⟩ := Option.bind_eq_some_iff.mp found
    obtain ⟨offset, read, own⟩ := Option.bind_eq_some_iff.mp own
    obtain ⟨name, called, own⟩ := Option.bind_eq_some_iff.mp own
    cases own
    rw [eq_of_splitFirst? sum]
    exact ⟨.registerRelative (readNumber?_eq_some_iff.mp read)
      (RegisterName.read?_eq_some_iff.mp called), rfl⟩
  | indexedScaled =>
    obtain ⟨⟨before, after⟩, sum, own⟩ := Option.bind_eq_some_iff.mp found
    obtain ⟨⟨factor, last⟩, product, own⟩ := Option.bind_eq_some_iff.mp own
    obtain ⟨base, read, own⟩ := Option.bind_eq_some_iff.mp own
    obtain ⟨scale, times, own⟩ := Option.bind_eq_some_iff.mp own
    obtain ⟨name, called, own⟩ := Option.bind_eq_some_iff.mp own
    cases own
    rw [eq_of_splitFirst? sum, eq_of_splitFirst? product]
    exact ⟨.indexedScaled (readNumber?_eq_some_iff.mp read) (readNumber?_eq_some_iff.mp times)
      (RegisterName.read?_eq_some_iff.mp called), rfl⟩
  | pcRelative =>
    obtain ⟨offset, read, rfl⟩ := Option.map_eq_some_iff.mp found
    obtain ⟨inner, between, read⟩ := Option.bind_eq_some_iff.mp read
    obtain ⟨rest, marked, between⟩ := Option.bind_eq_some_iff.mp between
    rw [after?_eq_some_iff.mp marked, eq_of_enclosed? between]
    exact ⟨.pcRelative (readNumber?_eq_some_iff.mp read), rfl⟩
  | label =>
    obtain ⟨name, read, rfl⟩ := Option.map_eq_some_iff.mp found
    obtain ⟨rfl, valid⟩ := readLabel?_eq_some_iff.mp read
    exact ⟨.label valid, rfl⟩

theorem grammar_of_written (written : Written text shape) :
    shape.mode.grammar text = some shape := by
  cases written with
  | immediate number =>
    simp [mode, grammar, immediate?, after?, readNumber?_eq_some_iff.mpr number]
  | direct number =>
    obtain ⟨first, rest, rfl, digit⟩ := number.exists_first
    have plain : enclosed? '[' ']' (first :: rest) = none := by
      refine enclosed?_eq_none fun starts => ?_
      cases starts
      cases digit
    simp [mode, grammar, direct?, plain, readNumber?_eq_some_iff.mpr number]
  | bracketed number =>
    simp [mode, grammar, direct?, enclosed?_append, readNumber?_eq_some_iff.mpr number]
  | indirect number =>
    simp [mode, grammar, indirect?, enclosed?_append, readNumber?_eq_some_iff.mpr number]
  | @indirectLabel name valid =>
    have letters : readNumber? ('.' :: name) = none := readNumber?_eq_none List.mem_cons_self rfl
    simp only [mode, grammar, indirect?, enclosed?_append]
    simp [letters, readLabel?_dot valid]
  | register named =>
    simp [mode, grammar, register?, RegisterName.read?_eq_some_iff.mpr named]
  | registerIndirect named =>
    simp [mode, grammar, registerIndirect?, enclosed?_append,
      RegisterName.read?_eq_some_iff.mpr named]
  | @registerRelative before after offset name number named =>
    have sum : '+' ∉ before := number.not_mem rfl
    simp [mode, grammar, registerRelative?, splitFirst?_append sum,
      readNumber?_eq_some_iff.mpr number, RegisterName.read?_eq_some_iff.mpr named]
  | @indexedScaled before factor after base scale name number times named =>
    have sum : '+' ∉ before := number.not_mem rfl
    have product : '*' ∉ factor := times.not_mem rfl
    simp [mode, grammar, indexedScaled?, splitFirst?_append sum, splitFirst?_append product,
      readNumber?_eq_some_iff.mpr number, readNumber?_eq_some_iff.mpr times,
      RegisterName.read?_eq_some_iff.mpr named]
  | pcRelative number =>
    simp [mode, grammar, pcRelative?, after?, enclosed?_append,
      readNumber?_eq_some_iff.mpr number]
  | label valid => simp [mode, grammar, label?, readLabel?_dot valid]

/-- The grammar of a mode reads the written shapes of this mode and no others. -/
theorem grammar_eq_some_iff :
    mode.grammar text = some shape ↔ Written text shape ∧ shape.mode = mode := by
  refine ⟨written_of_grammar, ?_⟩
  rintro ⟨written, rfl⟩
  exact grammar_of_written written

end Mode

end Tetrad
