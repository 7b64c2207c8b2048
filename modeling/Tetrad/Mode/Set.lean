import Tetrad.Mode

namespace Tetrad

structure ModeSet where
  bits : BitVec 9
deriving DecidableEq, Repr, Inhabited

namespace ModeSet

def empty : ModeSet := ⟨0⟩

def ofMode (mode : Mode) : ModeSet := ⟨1#9 <<< mode.index.val⟩

def union (a b : ModeSet) : ModeSet := ⟨a.bits ||| b.bits⟩

instance : Union ModeSet := ⟨union⟩

def ofList (modes : List Mode) : ModeSet := modes.foldl (fun set mode => set ∪ ofMode mode) empty

def contains (set : ModeSet) (mode : Mode) : Bool := set.bits.getLsbD mode.index.val

/-- The modes of a set in the order of `Mode.all`. -/
def toList (set : ModeSet) : List Mode := Mode.all.filter set.contains

def size (set : ModeSet) : Nat := set.toList.length

def isEmpty (set : ModeSet) : Bool := set.toList.isEmpty

/-- The only mode of a set that holds exactly one. -/
def single? (set : ModeSet) : Option Mode :=
  match set.toList with
  | [mode] => some mode
  | _ => none

/-- A position with this set leaves its mode to the tag of the word. -/
def isFree (set : ModeSet) : Bool := set.single?.isNone

/-- A mode read from a tag is legal here: labels are stored as direct addresses, so the direct
mode is legal wherever labels are. -/
def admits (set : ModeSet) (mode : Mode) : Bool :=
  set.contains mode || (mode == .direct && set.contains .label)

/-- A set written with its modes between braces. -/
def text (set : ModeSet) : String :=
  "\x7b" ++ String.intercalate ", " (set.toList.map Mode.title) ++ "\x7d"

theorem mem_toList {set : ModeSet} {mode : Mode} : mode ∈ set.toList ↔ set.contains mode = true := by
  simp [toList, Mode.mem_all]

theorem contains_of_single? {set : ModeSet} {mode : Mode} (only : set.single? = some mode)
    (other : Mode) : set.contains other = decide (other = mode) := by
  unfold single? at only
  split at only
  · next listed =>
    cases only
    have := @mem_toList set other
    rw [listed, List.mem_singleton] at this
    by_cases same : other = mode <;> simp_all
  · cases only

end ModeSet

end Tetrad
