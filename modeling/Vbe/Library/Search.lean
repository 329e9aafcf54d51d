import Mathlib.Order.Monotone.Basic

/-! Binary search for the first position at which a predicate holds, where
reading a position may fail. The predicate has to be monotone only on the
positions searched. -/
namespace Vbe.Library.Search

variable {ε : Type}

/-- The loop `for i < j`: `fuel` bounds its iterations, and each one at least
halves the interval. -/
def searchFrom (test : Nat → Except ε Bool) : Nat → Nat → Nat → Except ε Nat
  | 0, i, _ => .ok i
  | fuel + 1, i, j =>
    if i < j then
      match test ((i + j) / 2) with
      | .error e => .error e
      | .ok false => searchFrom test fuel ((i + j) / 2 + 1) j
      | .ok true => searchFrom test fuel i ((i + j) / 2)
    else .ok i

def search (n : Nat) (test : Nat → Except ε Bool) : Except ε Nat :=
  searchFrom test n 0 n

/-- What a successful search returns: the boundary between the positions where
the predicate fails and those where it holds. -/
structure Boundary (n : Nat) (holds : Nat → Prop) (pos : Nat) : Prop where
  bound : pos ≤ n
  before : ∀ k < pos, ¬ holds k
  after : ∀ k, pos ≤ k → k < n → holds k

variable {test : Nat → Except ε Bool} {holds : Nat → Bool}

theorem searchFrom_boundary {n : Nat} (reads : ∀ k < n, test k = .ok (holds k))
    (monotone : ∀ k m, k ≤ m → m < n → holds k → holds m)
    (fuel i j : Nat) (enough : j - i ≤ fuel) (ordered : i ≤ j) (bound : j ≤ n)
    (before : ∀ k < i, ¬ holds k) (after : ∀ k, j ≤ k → k < n → holds k) :
    ∃ pos, searchFrom test fuel i j = .ok pos ∧ Boundary n (holds ·) pos := by
  induction fuel generalizing i j with
  | zero =>
    have same : i = j := by omega
    subst same
    exact ⟨i,rfl,bound,before,after⟩
  | succ fuel ih =>
    by_cases inside : i < j
    · have mid : (i + j) / 2 < j := by omega
      simp only [searchFrom,if_pos inside,reads _ (by omega : (i + j) / 2 < n)]
      cases answer : holds ((i + j) / 2) with
      | false =>
        refine ih _ j (by omega) (by omega) bound ?_ after
        intro k small true
        have := monotone k _ (by omega) (by omega : (i + j) / 2 < n) true
        simp [answer] at this
      | true =>
        refine ih i _ (by omega) (by omega) (by omega) before ?_
        intro k large inRange
        exact monotone _ k large inRange answer
    · have same : i = j := by omega
      subst same
      exact ⟨i,by simp [searchFrom],bound,before,after⟩

/-- A search over readable positions finds the boundary of a monotone
predicate. -/
theorem search_boundary {n : Nat} (reads : ∀ k < n, test k = .ok (holds k))
    (monotone : ∀ k m, k ≤ m → m < n → holds k → holds m) :
    ∃ pos, search n test = .ok pos ∧ Boundary n (holds ·) pos :=
  searchFrom_boundary reads monotone n 0 n (by omega) (by omega) (by omega)
    (by intro k small; omega) (by intro k large small; omega)

/-- The boundary is the position of the first element that satisfies a
predicate closed under going up the list. -/
theorem Boundary.filter_eq_drop {α : Type} {l : List α} {holds : α → Bool} {pos : Nat}
    (found : Boundary l.length (fun k => ∃ x, l[k]? = some x ∧ holds x) pos) :
    l.filter holds = l.drop pos := by
  have split := (List.take_append_drop pos l).symm
  have front : (l.take pos).filter holds = [] := by
    rw [List.filter_eq_nil_iff]
    intro x member true
    obtain ⟨k,inside,rfl⟩ := List.mem_iff_getElem.mp member
    have small : k < pos := by simp at inside; omega
    refine found.before k small ⟨_,?_,true⟩
    simp [List.getElem?_eq_getElem (by simp at inside; omega : k < l.length)]
  have back : (l.drop pos).filter holds = l.drop pos := by
    rw [List.filter_eq_self]
    intro x member
    obtain ⟨k,inside,rfl⟩ := List.mem_iff_getElem.mp member
    have small : pos + k < l.length := by simp at inside; omega
    obtain ⟨y,there,true⟩ := found.after (pos + k) (by omega) small
    have same : l[pos + k] = y := by simpa [List.getElem?_eq_getElem small] using there
    simpa [same] using true
  conv_lhs => rw [split]
  rw [List.filter_append,front,back,List.nil_append]

/-- Stopping at the first element that fails a predicate drops nothing that
satisfies it, when what satisfies it comes first. -/
theorem takeWhile_eq_filter_of_closed {α : Type} {l : List α} {holds : α → Bool}
    (closed : l.Pairwise fun x y => holds y = true → holds x = true) :
    l.takeWhile holds = l.filter holds := by
  induction l with
  | nil => rfl
  | cons x l ih =>
    obtain ⟨first,rest⟩ := List.pairwise_cons.mp closed
    cases answer : holds x with
    | true => simp [answer,ih rest]
    | false =>
      have none : l.filter holds = [] := by
        rw [List.filter_eq_nil_iff]
        intro y member true
        simp [first y member true] at answer
      simp [answer,none]

end Vbe.Library.Search
