import Mathlib.Data.Finset.Card

/-! Numbering the distinct elements of a list in the order in which they first
occur, as a loop does that adds an element to a table when the table lacks it. -/
namespace Vbe.Library.Distinct

variable {α : Type} [DecidableEq α]

def note (seen : List α) (x : α) : List α :=
  if x ∈ seen then seen else seen ++ [x]

def distinct (l : List α) : List α := l.foldl note []

theorem mem_note {seen : List α} {x y : α} : y ∈ note seen x ↔ y ∈ seen ∨ y = x := by
  unfold note
  split
  next present =>
    constructor
    · exact Or.inl
    · rintro (old | rfl)
      · exact old
      · exact present
  next absent => simp

theorem nodup_note {seen : List α} (nodup : seen.Nodup) (x : α) : (note seen x).Nodup := by
  unfold note
  split
  next present => exact nodup
  next absent =>
    rw [List.nodup_append]
    refine ⟨nodup,by simp,?_⟩
    intro y member z last equal
    have same : z = x := by simpa using last
    exact absent (same ▸ equal ▸ member)

theorem mem_foldl_note (l seen : List α) (y : α) : y ∈ l.foldl note seen ↔ y ∈ seen ∨ y ∈ l := by
  induction l generalizing seen with
  | nil => simp
  | cons x l ih => simp [ih,mem_note,or_assoc]

theorem nodup_foldl_note (l seen : List α) (nodup : seen.Nodup) : (l.foldl note seen).Nodup := by
  induction l generalizing seen with
  | nil => exact nodup
  | cons x l ih => exact ih _ (nodup_note nodup x)

@[simp] theorem mem_distinct {l : List α} {x : α} : x ∈ distinct l ↔ x ∈ l := by
  simp [distinct,mem_foldl_note]

theorem nodup_distinct (l : List α) : (distinct l).Nodup :=
  nodup_foldl_note l [] (by simp)

/-- The number given to an element leads back to it. -/
theorem getElem?_idxOf_distinct {l : List α} {x : α} (member : x ∈ l) :
    (distinct l)[(distinct l).idxOf x]? = some x := by
  have bound : (distinct l).idxOf x < (distinct l).length := by
    rw [List.idxOf_lt_length_iff]
    exact mem_distinct.mpr member
  rw [List.getElem?_eq_getElem bound,List.getElem_idxOf bound]

theorem idxOf_distinct_lt {l : List α} {x : α} (member : x ∈ l) :
    (distinct l).idxOf x < (distinct l).length := by
  rw [List.idxOf_lt_length_iff]
  exact mem_distinct.mpr member

/-- As many numbers are given out as there are distinct elements. -/
theorem length_distinct (l : List α) : (distinct l).length = l.toFinset.card := by
  have same : (distinct l).toFinset = l.toFinset := by
    ext x
    simp
  rw [← same,List.toFinset_card_of_nodup (nodup_distinct l)]

end Vbe.Library.Distinct
