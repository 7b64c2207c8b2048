import Mathlib.Data.List.Forall2

namespace Tetrad

variable {α β ε : Type}

theorem ok_bind (value : α) (next : α → Except ε β) : (Except.ok value >>= next) = next value := rfl

theorem bind_eq_ok_iff {first : Except ε α} {next : α → Except ε β} {result : β} :
    (first >>= next) = .ok result ↔ ∃ value, first = .ok value ∧ next value = .ok result := by
  cases first <;> simp [bind, Except.bind]

theorem bind_eq_error_iff {first : Except ε α} {next : α → Except ε β} {reason : ε} :
    (first >>= next) = .error reason ↔
      first = .error reason ∨ ∃ value, first = .ok value ∧ next value = .error reason := by
  cases first <;> simp [bind, Except.bind]

theorem map_eq_ok_iff {first : Except ε α} {f : α → β} {result : β} :
    first.map f = .ok result ↔ ∃ value, first = .ok value ∧ f value = result := by
  cases first <;> simp [Except.map]

theorem map_eq_error_iff {first : Except ε α} {f : α → β} {reason : ε} :
    first.map f = .error reason ↔ first = .error reason := by
  cases first <;> simp [Except.map]

theorem mapM_eq_some_iff_forall₂ {f : α → Option β} {items : List α} {results : List β} :
    items.mapM f = some results ↔
      List.Forall₂ (fun item result => f item = some result) items results := by
  induction items generalizing results with
  | nil => simp [eq_comm]
  | cons item rest ih =>
    rw [List.mapM_cons, List.forall₂_cons_left_iff]
    cases first : f item with
    | none => simp
    | some result =>
      cases later : rest.mapM f with
      | none => simp [← ih, later]
      | some others => simp [← ih, later, eq_comm]

theorem mapM_eq_ok_iff_forall₂ {f : α → Except ε β} {items : List α} {results : List β} :
    items.mapM f = .ok results ↔
      List.Forall₂ (fun item result => f item = .ok result) items results := by
  induction items generalizing results with
  | nil => simp [pure, Except.pure, eq_comm]
  | cons item rest ih =>
    rw [List.mapM_cons, List.forall₂_cons_left_iff]
    simp only [bind_eq_ok_iff, ih, pure, Except.pure, Except.ok.injEq]
    constructor
    · rintro ⟨result, first, others, later, rfl⟩
      exact ⟨result, others, first, later, rfl⟩
    · rintro ⟨result, others, first, later, rfl⟩
      exact ⟨result, first, others, later, rfl⟩

theorem exists_forall₂ {R : α → β → Prop} {items : List α}
    (all : ∀ item ∈ items, ∃ result, R item result) : ∃ results, List.Forall₂ R items results := by
  induction items with
  | nil => exact ⟨[], .nil⟩
  | cons item rest ih =>
    obtain ⟨result, first⟩ := all item List.mem_cons_self
    obtain ⟨results, later⟩ := ih fun other member => all other (List.mem_cons_of_mem _ member)
    exact ⟨result :: results, .cons first later⟩

theorem exists_of_mem_forall₂ {R : α → β → Prop} {items : List α} {results : List β} {result : β}
    (all : List.Forall₂ R items results) (member : result ∈ results) :
    ∃ item ∈ items, R item result := by
  induction all with
  | nil => cases member
  | @cons item own items results first _ ih =>
    rcases List.mem_cons.mp member with rfl | later
    · exact ⟨item, List.mem_cons_self, first⟩
    · obtain ⟨found, inside, related⟩ := ih later
      exact ⟨found, List.mem_cons_of_mem _ inside, related⟩

theorem exists_getElem?_of_forall₂ {R : α → β → Prop} {items : List α} {results : List β}
    {place : Nat} {item : α} (all : List.Forall₂ R items results)
    (listed : items[place]? = some item) :
    ∃ result, results[place]? = some result ∧ R item result := by
  induction all generalizing place with
  | nil => cases listed
  | @cons first own items results related _ ih =>
    cases place with
    | zero =>
      cases listed
      exact ⟨own, rfl, related⟩
    | succ place => exact ih listed

/-- Two relations between lists, item by item, one after the other. -/
theorem forall₂_through {γ : Type} {R : α → β → Prop} {S : β → γ → Prop} {T : α → γ → Prop}
    {items : List α} {middles : List β} {results : List γ} (first : List.Forall₂ R items middles)
    (second : List.Forall₂ S middles results)
    (through : ∀ item middle result, R item middle → S middle result → T item result) :
    List.Forall₂ T items results := by
  induction first generalizing results with
  | nil =>
    cases second
    exact .nil
  | cons related _ ih =>
    obtain ⟨result, others, next, later, rfl⟩ := List.forall₂_cons_left_iff.mp second
    exact .cons (through _ _ _ related next) (ih later)

theorem exists_of_mapM_eq_error {f : α → Except ε β} {items : List α} {reason : ε}
    (failed : items.mapM f = .error reason) : ∃ item ∈ items, f item = .error reason := by
  induction items with
  | nil => cases failed
  | cons item rest ih =>
    rw [List.mapM_cons] at failed
    rcases bind_eq_error_iff.mp failed with first | ⟨result, -, later⟩
    · exact ⟨item, List.mem_cons_self, first⟩
    · rcases bind_eq_error_iff.mp later with later | ⟨others, -, impossible⟩
      · obtain ⟨found, member, same⟩ := ih later
        exact ⟨found, List.mem_cons_of_mem _ member, same⟩
      · cases impossible

/-- A search that does not look at the places finds nothing when no item passes the test. -/
theorem find?_zipIdx_eq_none_iff {items : List α} {test : α → Bool} :
    (items.zipIdx.find? fun entry => test entry.1) = none ↔ ∀ item ∈ items, test item = false := by
  have places : ∀ entry ∈ items.zipIdx, entry.1 ∈ items :=
    fun entry member => List.fst_mem_of_mem_zipIdx member
  simp only [List.find?_eq_none, Bool.not_eq_true]
  constructor
  · intro none item member
    obtain ⟨place, inside, rfl⟩ := List.mem_iff_getElem.mp member
    have listed := List.mk_mem_zipIdx_iff_getElem?.mpr (List.getElem?_eq_getElem inside)
    exact none (items[place], place) listed
  · intro none entry member
    exact none entry.1 (places entry member)

/-- Such a search finds the first item that passes the test, and its place. -/
theorem find?_zipIdx_eq_some_iff {items : List α} {test : α → Bool} {item : α} {place : Nat} :
    (items.zipIdx.find? fun entry => test entry.1) = some (item, place) ↔
      items[place]? = some item ∧ test item = true ∧
        ∀ earlier < place, ∀ other, items[earlier]? = some other → test other = false := by
  rw [List.find?_eq_some_iff_getElem]
  constructor
  · rintro ⟨passes, found, inside, here, earlier⟩
    rw [List.getElem_zipIdx, Nat.zero_add, Prod.mk.injEq] at here
    obtain ⟨rfl, rfl⟩ := here
    rw [List.length_zipIdx] at inside
    refine ⟨List.getElem?_eq_getElem inside, passes, ?_⟩
    intro other below value listed
    obtain ⟨-, rfl⟩ := List.getElem?_eq_some_iff.mp listed
    simpa using earlier other below
  · rintro ⟨listed, passes, earlier⟩
    obtain ⟨inside, rfl⟩ := List.getElem?_eq_some_iff.mp listed
    refine ⟨passes, place, by simpa using inside, by simp, ?_⟩
    intro other below
    have within : other < items.length := Nat.lt_trans below inside
    simpa using earlier other below _ (List.getElem?_eq_getElem within)

end Tetrad
