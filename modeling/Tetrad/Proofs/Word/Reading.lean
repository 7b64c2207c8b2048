import Mathlib.Algebra.Ring.Nat
import Tetrad.Word

namespace Tetrad

namespace Field

theorem total_append (a b : List Field) : total (a ++ b) = total a + total b := by
  induction a with
  | nil => exact (Nat.zero_add _).symm
  | cons field rest ih => rw [List.cons_append, total_cons, total_cons, ih, Nat.add_assoc]

theorem pack_cons (room : Nat) (field : Field) (rest : List Field) :
    pack room (field :: rest) =
      field.value % 2 ^ field.width * 2 ^ (room - field.width) +
        pack (room - field.width) rest := by
  simp only [pack, Nat.shiftLeft_eq, Nat.one_mul]

theorem pack_lt {room : Nat} {fields : List Field} (fits : total fields ≤ room) :
    pack room fields < 2 ^ room := by
  induction fields generalizing room with
  | nil => exact Nat.two_pow_pos room
  | cons field rest ih =>
    rw [total_cons] at fits
    have later := @ih (room - field.width) (by omega)
    have cut : field.value % 2 ^ field.width < 2 ^ field.width := Nat.mod_lt _ (Nat.two_pow_pos _)
    have split : 2 ^ room = 2 ^ field.width * 2 ^ (room - field.width) := by
      rw [← Nat.pow_add]; congr 1; omega
    rw [pack_cons]
    calc field.value % 2 ^ field.width * 2 ^ (room - field.width) + pack (room - field.width) rest
        < field.value % 2 ^ field.width * 2 ^ (room - field.width) + 2 ^ (room - field.width) :=
          Nat.add_lt_add_left later _
      _ = (field.value % 2 ^ field.width + 1) * 2 ^ (room - field.width) := (Nat.succ_mul _ _).symm
      _ ≤ 2 ^ room := split ▸ Nat.mul_le_mul_right _ cut

theorem dvd_pack {room : Nat} {fields : List Field} (fits : total fields ≤ room) :
    2 ^ (room - total fields) ∣ pack room fields := by
  induction fields generalizing room with
  | nil => exact Nat.dvd_zero _
  | cons field rest ih =>
    rw [total_cons] at fits ⊢
    rw [pack_cons]
    have later := @ih (room - field.width) (by omega)
    rw [Nat.sub_sub] at later
    have first : 2 ^ (room - (field.width + total rest)) ∣ 2 ^ (room - field.width) :=
      Nat.pow_dvd_pow 2 (by omega)
    exact Nat.dvd_add (Nat.dvd_mul_left_of_dvd first _) later

end Field

namespace Cursor

/-- The unread bits are not more than there is room for. -/
def Bounded (cursor : Cursor) : Prop := cursor.rest < 2 ^ cursor.room

/-- The cursor finds the fields one after another, each cut to its width, and ends at the last
cursor. It never asks for more bits than the word still has. -/
inductive Reads : Cursor → List Field → Cursor → Prop
  | nil (cursor : Cursor) : Reads cursor [] cursor
  | cons {cursor next last : Cursor} {field : Field} {rest : List Field}
      (fits : field.width ≤ cursor.room)
      (taken : cursor.take field.width = (field.value % 2 ^ field.width, next))
      (later : Reads next rest last) : Reads cursor (field :: rest) last

theorem bounded_ofWord (word : UInt32) : (ofWord word).Bounded := word.toNat_lt

theorem take_eq (cursor : Cursor) (width : Nat) : cursor.take width =
    (cursor.rest / 2 ^ (cursor.room - width),
      ⟨cursor.rest % 2 ^ (cursor.room - width), cursor.room - width⟩) := by
  simp only [take, Nat.shiftRight_eq_div_pow, Nat.shiftLeft_eq, Nat.one_mul]

theorem bounded_take (cursor : Cursor) (width : Nat) : (cursor.take width).2.Bounded := by
  rw [take_eq]
  exact Nat.mod_lt _ (Nat.two_pow_pos _)

theorem take_room (cursor : Cursor) (width : Nat) :
    (cursor.take width).2.room = cursor.room - width := rfl

/-- What is read and what is left are the bits that were there. -/
theorem take_split (cursor : Cursor) (width : Nat) :
    cursor.rest =
      (cursor.take width).1 * 2 ^ (cursor.room - width) + (cursor.take width).2.rest := by
  rw [take_eq]
  exact (Nat.div_add_mod' cursor.rest (2 ^ (cursor.room - width))).symm

theorem take_lt {cursor : Cursor} {width : Nat} (bounded : cursor.Bounded)
    (fits : width ≤ cursor.room) : (cursor.take width).1 < 2 ^ width := by
  have split : 2 ^ cursor.room = 2 ^ width * 2 ^ (cursor.room - width) := by
    rw [← Nat.pow_add]; congr 1; omega
  rw [take_eq]
  exact (Nat.div_lt_iff_lt_mul (Nat.two_pow_pos _)).mpr (split ▸ bounded)

theorem reads_take {cursor : Cursor} {width : Nat} (bounded : cursor.Bounded)
    (fits : width ≤ cursor.room) :
    cursor.Reads [⟨(cursor.take width).1, width⟩] (cursor.take width).2 := by
  refine .cons fits ?_ (.nil _)
  rw [Nat.mod_eq_of_lt (take_lt bounded fits)]

theorem reads_cons_iff {cursor last : Cursor} {field : Field} {rest : List Field} :
    cursor.Reads (field :: rest) last ↔ field.width ≤ cursor.room ∧
      ∃ next, cursor.take field.width = (field.value % 2 ^ field.width, next) ∧
        next.Reads rest last := by
  constructor
  · intro reads
    cases reads with
    | cons fits taken later => exact ⟨fits, _, taken, later⟩
  · rintro ⟨fits, next, taken, later⟩
    exact .cons fits taken later

theorem reads_nil_iff {cursor last : Cursor} : cursor.Reads [] last ↔ cursor = last := by
  constructor
  · intro reads; cases reads; rfl
  · rintro rfl; exact .nil _

theorem Reads.append {cursor next last : Cursor} {fields others : List Field}
    (reads : cursor.Reads fields next) (later : next.Reads others last) :
    cursor.Reads (fields ++ others) last := by
  induction reads with
  | nil => exact later
  | cons fits taken _ ih => exact .cons fits taken (ih later)

theorem reads_append_iff {cursor last : Cursor} {fields others : List Field} :
    cursor.Reads (fields ++ others) last ↔
      ∃ next, cursor.Reads fields next ∧ next.Reads others last := by
  constructor
  · intro reads
    induction fields generalizing cursor with
    | nil => exact ⟨cursor, .nil _, reads⟩
    | cons field rest ih =>
      obtain ⟨fits, next, taken, later⟩ := reads_cons_iff.mp reads
      obtain ⟨middle, found, others⟩ := ih later
      exact ⟨middle, .cons fits taken found, others⟩
  · rintro ⟨next, reads, later⟩
    exact reads.append later

/-- The fields take the room between the two cursors. -/
theorem Reads.room_eq {cursor last : Cursor} {fields : List Field}
    (reads : cursor.Reads fields last) : cursor.room = Field.total fields + last.room := by
  induction reads with
  | nil => simp [Field.total]
  | @cons cursor next last field rest fits taken _ ih =>
    have room : next.room = cursor.room - field.width := by
      rw [← take_room cursor field.width, taken]
    rw [Field.total_cons]
    omega

/-- The bits at the start are the packed fields and the bits at the end. -/
theorem Reads.rest_eq {cursor last : Cursor} {fields : List Field}
    (reads : cursor.Reads fields last) :
    cursor.rest = Field.pack cursor.room fields + last.rest := by
  induction reads with
  | nil => simp [Field.pack]
  | @cons cursor next last field rest fits taken _ ih =>
    have room : next.room = cursor.room - field.width := by
      rw [← take_room cursor field.width, taken]
    have split := take_split cursor field.width
    rw [taken] at split
    rw [Field.pack_cons, split, ih, room, Nat.add_assoc]

theorem Reads.bounded {cursor last : Cursor} {fields : List Field}
    (reads : cursor.Reads fields last) (bounded : cursor.Bounded) : last.Bounded := by
  induction reads with
  | nil => exact bounded
  | @cons cursor next last field rest fits taken _ ih =>
    have after := bounded_take cursor field.width
    rw [taken] at after
    exact ih after

/-- Reading gives back the first of the fields that were packed, cut to its width. -/
theorem take_pack {room : Nat} {field : Field} {rest : List Field}
    (fits : Field.total (field :: rest) ≤ room) :
    (Cursor.mk (Field.pack room (field :: rest)) room).take field.width =
      (field.value % 2 ^ field.width,
        ⟨Field.pack (room - field.width) rest, room - field.width⟩) := by
  rw [Field.total_cons] at fits
  have later := @Field.pack_lt (room - field.width) rest (by omega)
  simp only [take_eq, Field.pack_cons]
  rw [Nat.mul_comm, Nat.mul_add_div (Nat.two_pow_pos _), Nat.div_eq_of_lt later, Nat.add_zero,
    Nat.mul_add_mod, Nat.mod_eq_of_lt later]

/-- Packed fields are found as they were written, and only zeros are left. -/
theorem reads_pack {room : Nat} {fields : List Field} (fits : Field.total fields ≤ room) :
    (Cursor.mk (Field.pack room fields) room).Reads fields ⟨0, room - Field.total fields⟩ := by
  induction fields generalizing room with
  | nil => exact .nil _
  | cons field rest ih =>
    have taken := take_pack fits
    rw [Field.total_cons] at fits ⊢
    have later := @ih (room - field.width) (by omega)
    rw [Nat.sub_sub] at later
    exact .cons (by show field.width ≤ room; omega) taken later

end Cursor

end Tetrad
