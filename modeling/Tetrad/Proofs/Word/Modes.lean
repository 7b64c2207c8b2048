import Tetrad.Proofs.Failure
import Tetrad.Word

namespace Tetrad

theorem Mode.ofTag?_eq_some_iff {tag : Nat} {mode : Mode} :
    ofTag? tag = some mode ↔ mode ≠ .label ∧ mode.tag = tag := by
  constructor
  · intro named
    refine ⟨?_, tag_of_ofTag? named⟩
    rintro rfl
    rw [← tag_of_ofTag? named] at named
    cases named
  · rintro ⟨plain, rfl⟩
    rw [ofTag?_tag, if_neg plain]

/-- The mode that a word holds for a mode of the source: a label is stored as a direct address. -/
def Mode.stored (mode : Mode) : Mode := if mode = .label then .direct else mode

theorem Mode.tag_stored (mode : Mode) : mode.stored.tag = mode.tag := by cases mode <;> rfl

theorem Mode.width_stored (mode : Mode) : mode.stored.width = mode.width := by cases mode <;> rfl

namespace ModeSet

/-- What stands for a mode of a set in a word is legal where the mode is. -/
theorem admits_stored {set : ModeSet} {mode : Mode} (inSet : set.contains mode = true) :
    set.admits mode.stored = true := by
  unfold admits Mode.stored
  split
  · next isLabel =>
    rw [isLabel] at inSet
    simp [inSet]
  · simp [inSet]

/-- A mode is decoded where it is admitted and no label, and if the position is free, under its own
tag. -/
theorem decoded?_eq_some_iff {set : ModeSet} {tag : Nat} {mode : Mode} :
    set.decoded? tag = some mode ↔
      set.admits mode = true ∧ mode ≠ .label ∧ (set.isFree = true → mode.tag = tag) := by
  cases only : set.single? with
  | some single =>
    have fixed : set.isFree = false := by simp [isFree, only]
    have inSet := contains_of_single? only
    simp only [decoded?, only, admits, inSet, fixed]
    cases single <;> cases mode <;> simp
  | none =>
    have free : set.isFree = true := by simp [isFree, only]
    simp only [decoded?, only, Option.filter_eq_some_iff, Mode.ofTag?_eq_some_iff, free]
    constructor
    · rintro ⟨⟨plain, named⟩, admitted⟩
      exact ⟨admitted, plain, fun _ => named⟩
    · rintro ⟨admitted, plain, named⟩
      exact ⟨⟨plain, named trivial⟩, admitted⟩

end ModeSet

theorem sameTags_iff {tags : List Nat} : sameTags tags = true ↔ ∀ a ∈ tags, ∀ b ∈ tags, a = b := by
  cases tags with
  | nil => simp [sameTags]
  | cons first rest =>
    simp only [sameTags, List.all_eq_true, beq_iff_eq]
    constructor
    · intro same
      have all : ∀ a ∈ first :: rest, a = first := by
        intro a member
        rcases List.mem_cons.mp member with rfl | later
        · rfl
        · exact same a later
      intro a inA b inB
      rw [all a inA, all b inB]
    · intro same a later
      exact same a (List.mem_cons_of_mem _ later) first List.mem_cons_self

namespace Form

theorem atFree_map {α β : Type} (form : Form) (f : α → β) (items : List α) :
    form.atFree (items.map f) = (form.atFree items).map f := by
  simp [atFree, List.zip_map_right, List.filter_map, Function.comp_def]

theorem mem_atFree {α : Type} {form : Form} {items : List α} {item : α} :
    item ∈ form.atFree items ↔
      ∃ set, (set, item) ∈ form.operands.zip items ∧ set.isFree = true := by
  simp [atFree]

/-- The modes at the free positions share one tag. -/
def SharesTag (form : Form) (modes : List Mode) : Prop :=
  ∀ a ∈ form.atFree modes, ∀ b ∈ form.atFree modes, a.tag = b.tag

/-- Each mode is legal at its position, and the modes at the free positions share one tag. -/
structure Fits (form : Form) (legal : ModeSet → Mode → Bool) (modes : List Mode) : Prop where
  each : List.Forall₂ (fun set mode => legal set mode = true) form.operands modes
  shared : form.SharesTag modes

/-- A form admits the modes of operands that are stored in a word. -/
abbrev Admits (form : Form) (modes : List Mode) : Prop := form.Fits ModeSet.admits modes

/-- A form accepts the modes of operands as they are written, labels included. -/
abbrev Accepts (form : Form) (modes : List Mode) : Prop := form.Fits ModeSet.contains modes

theorem fits_iff {form : Form} {legal : ModeSet → Mode → Bool} {modes : List Mode} :
    form.Fits legal modes ↔ modes.length = form.arity ∧
      (∀ pair ∈ form.operands.zip modes, legal pair.1 pair.2 = true) ∧ form.SharesTag modes := by
  rw [arity]
  constructor
  · rintro ⟨each, shared⟩
    obtain ⟨length, each⟩ := List.forall₂_iff_zip.mp each
    exact ⟨length.symm, fun pair member => each member, shared⟩
  · rintro ⟨length, each, shared⟩
    refine ⟨List.forall₂_iff_zip.mpr ⟨length.symm, ?_⟩, shared⟩
    exact fun {set mode} member => each (set, mode) member

theorem SharesTag.stored {form : Form} {modes : List Mode} (shared : form.SharesTag modes) :
    form.SharesTag (modes.map Mode.stored) := by
  rw [SharesTag, atFree_map]
  intro a inA b inB
  obtain ⟨first, inFirst, rfl⟩ := List.mem_map.mp inA
  obtain ⟨second, inSecond, rfl⟩ := List.mem_map.mp inB
  rw [Mode.tag_stored, Mode.tag_stored]
  exact shared first inFirst second inSecond

/-- A form that accepts modes admits what stands for them in a word. -/
theorem Accepts.admits_stored {form : Form} {modes : List Mode} (accepts : form.Accepts modes) :
    form.Admits (modes.map Mode.stored) := by
  refine ⟨?_, accepts.shared.stored⟩
  rw [List.forall₂_map_right_iff]
  exact accepts.each.imp fun set mode inSet => ModeSet.admits_stored inSet

/-- The tag that is written is that of every free operand. -/
theorem Admits.tag_eq {form : Form} {modes : List Mode} (admits : form.Admits modes) {mode : Mode}
    (free : mode ∈ form.atFree modes) : form.tag modes = mode.tag := by
  obtain ⟨set, member, isFree⟩ := mem_atFree.mp free
  have some_free : form.operands.any ModeSet.isFree = true :=
    List.any_eq_true.mpr ⟨set, (List.of_mem_zip member).1, isFree⟩
  unfold tag
  rw [some_free, if_pos rfl]
  cases listed : form.atFree modes with
  | nil => rw [listed] at free; cases free
  | cons first rest =>
    have same := admits.shared first (listed ▸ List.mem_cons_self) mode free
    exact same

/-- Modes that a form admits are decoded under the tag that is written for them. -/
theorem Admits.decoded {form : Form} {modes : List Mode} (admits : form.Admits modes)
    (plain : ∀ mode ∈ modes, mode ≠ .label) :
    List.Forall₂ (fun set mode => set.decoded? (form.tag modes) = some mode)
      form.operands modes := by
  obtain ⟨length, each⟩ := List.forall₂_iff_zip.mp admits.each
  refine List.forall₂_iff_zip.mpr ⟨length, fun {set mode} member => ?_⟩
  refine ModeSet.decoded?_eq_some_iff.mpr ⟨each member, plain mode (List.of_mem_zip member).2, ?_⟩
  intro free
  exact (admits.tag_eq (mem_atFree.mpr ⟨set, member, free⟩)).symm

/-- Modes that are decoded under a tag are admitted, and the tag is written for them again if a
position is free. -/
theorem admits_of_decoded {form : Form} {tag : Nat} {modes : List Mode}
    (decoded : List.Forall₂ (fun set mode => set.decoded? tag = some mode) form.operands modes) :
    form.Admits modes ∧ (form.operands.any ModeSet.isFree = true → form.tag modes = tag) := by
  obtain ⟨length, each⟩ := List.forall₂_iff_zip.mp decoded
  have named : ∀ mode ∈ form.atFree modes, mode.tag = tag := by
    intro mode free
    obtain ⟨set, member, isFree⟩ := mem_atFree.mp free
    exact (ModeSet.decoded?_eq_some_iff.mp (each member)).2.2 isFree
  have admits : form.Admits modes := by
    refine ⟨decoded.imp fun set mode named => (ModeSet.decoded?_eq_some_iff.mp named).1, ?_⟩
    intro a inA b inB
    rw [named a inA, named b inB]
  refine ⟨admits, fun some_free => ?_⟩
  obtain ⟨set, inForm, isFree⟩ := List.any_eq_true.mp some_free
  obtain ⟨place, inside, rfl⟩ := List.mem_iff_getElem.mp inForm
  have member : (form.operands[place], modes[place]) ∈ form.operands.zip modes := by
    rw [← List.getElem_zip (h := by simp [← length, inside])]
    exact List.getElem_mem _
  have free := mem_atFree.mpr ⟨_, member, isFree⟩
  rw [admits.tag_eq free, named _ free]

end Form

end Tetrad
