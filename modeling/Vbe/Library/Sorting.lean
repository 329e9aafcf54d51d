import Mathlib.Data.List.Sort

/-! Sorting by a comparison, where elements that compare equal may come in any order. -/
namespace Vbe.Library

variable {α κ : Type}

/-- The comparisons that a list can be sorted by. -/
structure Comparing (less : α → α → Bool) : Prop where
  trans : ∀ a b c, less b a = false → less c b = false → less c a = false
  total : ∀ a b, less b a = false ∨ less a b = false

theorem comparing_key [LinearOrder κ] {less : α → α → Bool} (key : α → κ) (same : ∀ a b, less a b = true ↔ key a < key b) :
    Comparing less := by
  have greater (a b : α) : less b a = false ↔ key a ≤ key b := by rw [← Bool.not_eq_true,same,not_lt]
  constructor
  · intro a b c first second
    rw [greater] at *
    exact le_trans first second
  · intro a b
    rw [greater,greater]
    exact le_total (key a) (key b)

structure Sorting where
  sort {α : Type} : (α → α → Bool) → List α → List α
  perm : ∀ {α : Type} (less : α → α → Bool) (l : List α), (sort less l).Perm l
  sorted : ∀ {α : Type} (less : α → α → Bool), Comparing less → ∀ l : List α, (sort less l).Pairwise fun a b => less b a = false

namespace Sorting

/-- Where no two elements have one key, the order in which they came makes no difference. -/
theorem sort_eq_of_perm [LinearOrder κ] {less : α → α → Bool} (key : α → κ) (same : ∀ a b, less a b = true ↔ key a < key b)
    (sorting : Sorting) {l l' : List α} (perm : l.Perm l') (distinct : (l.map key).Nodup) : sorting.sort less l = sorting.sort less l' := by
  have ordered (l : List α) : (sorting.sort less l).Pairwise fun a b => key a ≤ key b := by
    refine (sorting.sorted less (comparing_key key same) l).imp fun order => ?_
    rw [← not_lt,← same]
    simpa using order
  have whole := (sorting.perm less l).trans (perm.trans (sorting.perm less l').symm)
  refine List.Perm.eq_of_pairwise (fun a b first second below above => ?_) (ordered l) (ordered l') whole
  have inside := ((sorting.perm less l').trans perm.symm).mem_iff.mp second
  exact List.inj_on_of_nodup_map distinct ((sorting.perm less l).mem_iff.mp first) inside (le_antisymm below above)

/-- The sorting that keeps the order of elements that compare equal. -/
def stable : Sorting where
  sort less l := l.mergeSort fun a b => !less b a
  perm _ _ := List.mergeSort_perm _ _
  sorted less comparing l := by
    have sorted : (l.mergeSort fun a b => !less b a).Pairwise fun a b => (!less b a) = true := by
      apply List.pairwise_mergeSort
      · intro a b c first second
        simp only [Bool.not_eq_true'] at *
        exact comparing.trans a b c first second
      · intro a b
        simpa using comparing.total a b
    exact sorted.imp fun order => by simpa using order

end Sorting

end Vbe.Library
