import Mathlib.LinearAlgebra.Lagrange

/-! Codes by interpolation. Some values over a field determine a polynomial of low degree, whose
values at further points are the redundant ones; the same polynomial is found from any selection
of as many values. -/
namespace Vbe.Library.LagrangeCodes
open Polynomial

variable {F : Type} [Field F] (point : ℕ → F)

/-- The values of the polynomial that takes the first `d` values at the first `d` points. -/
noncomputable def extend (d : ℕ) (data : ℕ → F) (j : ℕ) : F :=
  eval (point j) (Lagrange.interpolate (Finset.range d) point data)

/-- The values of the polynomial that takes the known values. -/
noncomputable def recover (known : Finset ℕ) (values : ℕ → F) (i : ℕ) : F :=
  eval (point i) (Lagrange.interpolate known point values)

variable {point} {n d : ℕ} {data : ℕ → F}

theorem extend_data (distinct : Set.InjOn point (Finset.range n)) (fits : d ≤ n) {i : ℕ} (inside : i < d) :
    extend point d data i = data i := by
  apply Lagrange.eval_interpolate_at_node
  · apply distinct.mono
    intro j member
    simp only [Finset.coe_range,Set.mem_Iio] at member ⊢
    omega
  · exact Finset.mem_range.mpr inside

theorem recover_extend (distinct : Set.InjOn point (Finset.range n)) (fits : d ≤ n) {known : Finset ℕ} {values : ℕ → F}
    (within : known ⊆ Finset.range n) (enough : d ≤ known.card) (agree : ∀ j ∈ known, values j = extend point d data j) (i : ℕ) :
    recover point known values i = extend point d data i := by
  have first : Set.InjOn point (Finset.range d : Finset ℕ) := by
    apply distinct.mono
    intro j member
    simp only [Finset.coe_range,Set.mem_Iio] at member ⊢
    omega
  have low : (Lagrange.interpolate (Finset.range d) point data).degree < known.card := by
    apply (Lagrange.degree_interpolate_lt data first).trans_le
    rw [Finset.card_range]
    exact_mod_cast enough
  have same := Lagrange.eq_interpolate_of_eval_eq values (distinct.mono within) low fun j member => (agree j member).symm
  rw [recover,← same]
  rfl

end Vbe.Library.LagrangeCodes
