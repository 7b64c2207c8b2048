namespace Tetrad

/-- A value and the number of bits that hold it. -/
structure Field where
  value : Nat
  width : Nat
deriving DecidableEq, Repr, Inhabited

namespace Field

def total (fields : List Field) : Nat := (fields.map width).foldr (· + ·) 0

/-- The number whose `room` bits start with the fields, each cut to its width, and end in zeros. -/
def pack (room : Nat) : List Field → Nat
  | [] => 0
  | field :: rest =>
    let left := room - field.width
    (field.value % (1 <<< field.width)) <<< left + pack left rest

theorem total_cons (field : Field) (rest : List Field) :
    total (field :: rest) = field.width + total rest := rfl

end Field

/-- What the fields of a word are read from, one after another. -/
class FieldSource (σ : Type) where
  take : σ → Nat → Nat × σ
  room : σ → Nat

/-- The bits that are read. -/
def FieldSource.used {σ : Type} [FieldSource σ] (source : σ) : Nat := 32 - room source

/-- The unread low bits of a word. -/
structure Cursor where
  rest : Nat
  room : Nat
deriving DecidableEq, Repr, Inhabited

namespace Cursor

def ofWord (word : UInt32) : Cursor := ⟨word.toNat, 32⟩

/-- Reads the next `width` bits. -/
def take (cursor : Cursor) (width : Nat) : Nat × Cursor :=
  let left := cursor.room - width
  (cursor.rest >>> left, ⟨cursor.rest % (1 <<< left), left⟩)

instance : FieldSource Cursor := ⟨take, room⟩

end Cursor

end Tetrad
