import Mathlib.Data.List.Basic

/-! Binary heaps kept in a list, with the sifting loops of Go's `container/heap`. The
comparison may be strict or not: it has to decide a total preorder up to ties. -/
namespace Vbe.Library.Heaps

section Operations
variable {α : Type} (less : α → α → Bool)

def lessAt (h : List α) (i j : Nat) : Bool :=
  match h[i]?, h[j]? with
  | some x, some y => less x y
  | _, _ => false

def swap (h : List α) (i j : Nat) : List α :=
  match h[i]?, h[j]? with
  | some x, some y => (h.set i y).set j x
  | _, _ => h

def parent (j : Nat) : Nat := (j - 1) / 2

theorem parent_lt {j : Nat} (positive : j ≠ 0) : parent j < j := by
  unfold parent
  omega

def up (h : List α) (j : Nat) : List α :=
  if j = 0 then h
  else if lessAt less h j (parent j) then up (swap h (parent j) j) (parent j)
  else h
termination_by j
decreasing_by exact parent_lt (by assumption)

/-- The smaller of the children of `i` among the first `n` elements, when it has any. -/
def child (h : List α) (i n : Nat) : Nat :=
  if 2 * i + 2 < n && lessAt less h (2 * i + 2) (2 * i + 1) then 2 * i + 2 else 2 * i + 1

theorem child_cases (h : List α) (i n : Nat) :
    child less h i n = 2 * i + 1 ∨ child less h i n = 2 * i + 2 ∧ 2 * i + 2 < n := by
  unfold child
  split
  next both => exact Or.inr ⟨rfl,by simp at both; exact both.1⟩
  next => exact Or.inl rfl

def down (h : List α) (i n : Nat) : List α :=
  if n ≤ 2 * i + 1 then h
  else if lessAt less h (child less h i n) i then down (swap h i (child less h i n)) (child less h i n) n
  else h
termination_by n - i
decreasing_by rcases child_cases less h i n with first | ⟨second,inside⟩ <;> omega

def Push (h : List α) (x : α) : List α := up less (h ++ [x]) h.length

/-- Exchanges the root with the last element, sifts it down and takes the last element off. -/
def Pop (h : List α) : Option (α × List α) :=
  let n := h.length - 1
  let h := down less (swap h 0 n) 0 n
  h[n]?.map fun x => (x,h.take n)

/-- Whether sifting down moves the element at `i`. -/
def sinks (h : List α) (i n : Nat) : Bool := !(n ≤ 2 * i + 1) && lessAt less h (child less h i n) i

/-- Sifts the element at `i` down, or else up. -/
def settle (h : List α) (i n : Nat) : List α := if sinks less h i n then down less h i n else up less h i

def Fix (h : List α) (i : Nat) : List α := settle less h i h.length

/-- Exchanges the element at `i` with the last one, which takes its place, and takes it off. -/
def Remove (h : List α) (i : Nat) : Option (α × List α) :=
  let n := h.length - 1
  let h := if n = i then h else settle less (swap h i n) i n
  h[n]?.map fun x => (x,h.take n)

end Operations

section Swap
variable {α : Type} {h : List α} {i j k : Nat}

theorem swap_perm (h : List α) (i j : Nat) : (swap h i j).Perm h := by
  unfold swap
  split
  next x y first second =>
    obtain ⟨inside,rfl⟩ := List.getElem?_eq_some_iff.mp first
    obtain ⟨within,rfl⟩ := List.getElem?_eq_some_iff.mp second
    exact List.set_set_perm inside within
  next => exact List.Perm.refl h

@[simp] theorem length_swap (h : List α) (i j : Nat) : (swap h i j).length = h.length := (swap_perm h i j).length_eq

theorem getElem?_swap (inside : i < h.length) (within : j < h.length) (k : Nat) :
    (swap h i j)[k]? = if k = j then h[i]? else if k = i then h[j]? else h[k]? := by
  have shape : swap h i j = (h.set i h[j]).set j h[i] := by
    simp [swap,List.getElem?_eq_getElem inside,List.getElem?_eq_getElem within]
  rw [shape,List.getElem?_set,List.length_set,List.getElem?_set]
  by_cases last : j = k
  · subst last
    simp [within,List.getElem?_eq_getElem inside]
  · by_cases first : i = k
    · subst first
      simp [last,Ne.symm last,inside,List.getElem?_eq_getElem within]
    · simp [last,first,Ne.symm last,Ne.symm first]

end Swap

section Sifting
variable {α : Type} {less : α → α → Bool} {R : α → α → Prop} {h : List α} {i j n : Nat}

/-- The comparison decides a preorder, in which ties may be decided either way. -/
structure Decides (less : α → α → Bool) (R : α → α → Prop) : Prop where
  refl : ∀ x, R x x
  trans : ∀ {x y z}, R x y → R y z → R x z
  yes : ∀ x y, less x y = true → R x y
  no : ∀ x y, less x y = false → R y x

/-- Among the first `n` elements no child comes before its parent. -/
def Ordered (R : α → α → Prop) (h : List α) (n : Nat) : Prop :=
  ∀ c x y, c ≠ 0 → c < n → h[parent c]? = some x → h[c]? = some y → R x y

/-- The element at `j` may still have to rise. -/
structure Rising (R : α → α → Prop) (h : List α) (j : Nat) : Prop where
  others : ∀ c x y, c ≠ 0 → c ≠ j → h[parent c]? = some x → h[c]? = some y → R x y
  across : ∀ c x y, c ≠ 0 → j ≠ 0 → parent c = j → h[parent j]? = some x → h[c]? = some y → R x y

/-- The element at `i` may still have to sink. -/
structure Sinking (R : α → α → Prop) (h : List α) (i n : Nat) : Prop where
  others : ∀ c x y, c ≠ 0 → c < n → parent c ≠ i → h[parent c]? = some x → h[c]? = some y → R x y
  across : ∀ c x y, c ≠ 0 → c < n → i ≠ 0 → parent c = i → h[parent i]? = some x → h[c]? = some y → R x y

theorem Rising.swap (decides : Decides less R) (rising : Rising R h j) (positive : j ≠ 0) (inside : j < h.length)
    (before : ∀ x y, h[parent j]? = some x → h[j]? = some y → R y x) :
    Rising R (swap h (parent j) j) (parent j) := by
  have climbs := Nat.ne_of_lt (parent_lt positive)
  have within : parent j < h.length := Nat.lt_trans (parent_lt positive) inside
  obtain ⟨top,there⟩ : ∃ top, h[parent j]? = some top := ⟨_,List.getElem?_eq_getElem within⟩
  obtain ⟨low,here⟩ : ∃ low, h[j]? = some low := ⟨_,List.getElem?_eq_getElem inside⟩
  have first := before top low there here
  refine ⟨fun c x y notRoot other px cy => ?_,fun c x y notRoot high child px cy => ?_⟩
  · have less := parent_lt notRoot
    rw [getElem?_swap within inside] at px cy
    by_cases same : c = j
    · subst same
      simp only [if_true,if_neg climbs,there,here,Option.some.injEq] at px cy
      exact px ▸ cy ▸ first
    · simp only [if_neg same,if_neg other] at cy
      by_cases below : parent c = j
      · simp only [if_pos below,there,Option.some.injEq] at px
        exact px ▸ rising.across c top y notRoot positive below there cy
      · by_cases sibling : parent c = parent j
        · simp only [if_neg below,if_pos sibling,here,Option.some.injEq] at px
          exact px ▸ decides.trans first (rising.others c top y notRoot same (sibling ▸ there) cy)
        · simp only [if_neg below,if_neg sibling] at px
          exact rising.others c x y notRoot same px cy
  · have less := parent_lt notRoot
    have higher := parent_lt high
    have lower := parent_lt positive
    rw [getElem?_swap within inside] at px cy
    simp only [if_neg (by omega : parent (parent j) ≠ j),if_neg (Nat.ne_of_lt higher)] at px
    have above := rising.others (parent j) x top high climbs px there
    by_cases same : c = j
    · subst same
      simp only [if_true,there,Option.some.injEq] at cy
      exact cy ▸ above
    · simp only [if_neg same,if_neg (by omega : c ≠ parent j)] at cy
      exact decides.trans above (rising.others c top y notRoot same (child ▸ there) cy)

theorem up_perm (less : α → α → Bool) (h : List α) (j : Nat) : (up less h j).Perm h := by
  induction h, j using up.induct less with
  | case1 h => rw [up,if_pos rfl]
  | case2 h j positive wins ih =>
    rw [up,if_neg positive,if_pos wins]
    exact ih.trans (swap_perm h _ _)
  | case3 h j positive loses => rw [up,if_neg positive,if_neg loses]

theorem lessAt_eq {x y : α} (first : h[i]? = some x) (second : h[j]? = some y) : lessAt less h i j = less x y := by
  simp [lessAt,first,second]

/-- Sifting up ends with a heap. -/
theorem Rising.up (decides : Decides less R) (rising : Rising R h j) (inside : j < h.length) :
    Ordered R (up less h j) h.length := by
  induction h, j using up.induct less with
  | case1 h =>
    rw [Heaps.up,if_pos rfl]
    exact fun c x y notRoot _ px cy => rising.others c x y notRoot notRoot px cy
  | case2 h j positive wins ih =>
    rw [Heaps.up,if_neg positive,if_pos wins]
    have climbs := parent_lt positive
    have after := ih (rising.swap decides positive inside fun x y px jy =>
      decides.yes y x ((lessAt_eq jy px).symm.trans wins)) (by rw [length_swap]; omega)
    rwa [length_swap] at after
  | case3 h j positive loses =>
    rw [Heaps.up,if_neg positive,if_neg loses]
    intro c x y notRoot _ px cy
    by_cases same : c = j
    · subst same
      exact decides.no y x ((lessAt_eq cy px).symm.trans (by simpa using loses))
    · exact rising.others c x y notRoot same px cy

theorem Sinking.swap (sinking : Sinking R h i n) (short : n ≤ h.length) (below : parent j = i) (child : j ≠ 0)
    (inside : j < n) (least : ∀ c x y, c ≠ 0 → c < n → parent c = i → h[j]? = some x → h[c]? = some y → R x y)
    (before : ∀ x y, h[i]? = some x → h[j]? = some y → R y x) : Sinking R (swap h i j) j n := by
  have down : i < j := below ▸ parent_lt child
  have outer : i < h.length := by omega
  have inner : j < h.length := by omega
  obtain ⟨top,there⟩ : ∃ top, h[i]? = some top := ⟨_,List.getElem?_eq_getElem outer⟩
  obtain ⟨low,here⟩ : ∃ low, h[j]? = some low := ⟨_,List.getElem?_eq_getElem inner⟩
  have first := before top low there here
  refine ⟨fun c x y notRoot within other px cy => ?_,fun c x y notRoot within _ under px cy => ?_⟩
  · have less := parent_lt notRoot
    rw [getElem?_swap outer inner] at px cy
    rw [if_neg other] at px
    by_cases same : c = j
    · subst same
      simp only [if_true,if_pos below,there,here,Option.some.injEq] at px cy
      exact px ▸ cy ▸ first
    · by_cases hole : c = i
      · subst hole
        simp only [if_neg same,if_true,if_neg (Nat.ne_of_lt less)] at px cy
        exact sinking.across j x y child inside notRoot below px cy
      · simp only [if_neg same,if_neg hole] at cy
        by_cases sibling : parent c = i
        · simp only [if_pos sibling,here,Option.some.injEq] at px
          exact px ▸ least c low y notRoot within sibling here cy
        · rw [if_neg sibling] at px
          exact sinking.others c x y notRoot within sibling px cy
  · have less := parent_lt notRoot
    rw [getElem?_swap outer inner] at px cy
    simp only [below,if_neg (Nat.ne_of_lt down),if_true,here,Option.some.injEq] at px
    simp only [if_neg (by omega : c ≠ j),if_neg (by omega : c ≠ i)] at cy
    refine px ▸ sinking.others c low y notRoot within (by omega) ?_ cy
    rw [under]
    exact here

theorem down_perm (less : α → α → Bool) (h : List α) (i n : Nat) : (down less h i n).Perm h := by
  induction h, i using down.induct less n with
  | case1 h i leaf => rw [down,if_pos leaf]
  | case2 h i inner wins ih =>
    rw [down,if_neg inner,if_pos wins]
    exact ih.trans (swap_perm h _ _)
  | case3 h i inner loses => rw [down,if_neg inner,if_neg loses]

/-- The child that is taken comes before the other one. -/
theorem child_least (decides : Decides less R) (inner : ¬n ≤ 2 * i + 1) {c : Nat} {x y : α} (notRoot : c ≠ 0)
    (within : c < n) (below : parent c = i) (px : h[child less h i n]? = some x) (cy : h[c]? = some y)
    (short : n ≤ h.length) : R x y := by
  have cases : c = 2 * i + 1 ∨ c = 2 * i + 2 := by
    unfold parent at below
    omega
  obtain ⟨left,first⟩ : ∃ left, h[2 * i + 1]? = some left := ⟨_,List.getElem?_eq_getElem (by omega)⟩
  unfold child at px
  split at px
  next both =>
    simp only [Bool.and_eq_true,decide_eq_true_eq] at both
    rcases cases with rfl | rfl
    · exact decides.yes x y ((lessAt_eq px cy).symm.trans both.2)
    · cases px.symm.trans cy
      exact decides.refl x
  next one =>
    rcases cases with rfl | rfl
    · cases px.symm.trans cy
      exact decides.refl x
    · refine decides.no y x ((lessAt_eq cy px).symm.trans ?_)
      simpa [within] using one

/-- Sifting down ends with a heap. -/
theorem Sinking.down (decides : Decides less R) (sinking : Sinking R h i n)
    (short : n ≤ h.length) : Ordered R (down less h i n) n := by
  induction h, i using down.induct less n with
  | case1 h i leaf =>
    rw [Heaps.down,if_pos leaf]
    intro c x y notRoot within px cy
    refine sinking.others c x y notRoot within ?_ px cy
    unfold parent
    omega
  | case2 h i inner wins ih =>
    rw [Heaps.down,if_neg inner,if_pos wins]
    have cases := child_cases less h i n
    have below : parent (child less h i n) = i := by
      unfold parent
      omega
    refine ih (sinking.swap short below (by omega) (by omega) ?_ ?_) (by rw [length_swap]; exact short)
    · intro c x y notRoot within under px cy
      exact child_least decides inner notRoot within under px cy short
    · intro x y px cy
      exact decides.yes y x ((lessAt_eq cy px).symm.trans wins)
  | case3 h i inner loses =>
    rw [Heaps.down,if_neg inner,if_neg loses]
    intro c x y notRoot within px cy
    by_cases under : parent c = i
    · have cases := child_cases less h i n
      obtain ⟨low,here⟩ : ∃ low, h[child less h i n]? = some low := ⟨_,List.getElem?_eq_getElem (by omega)⟩
      subst under
      have above := decides.no low x ((lessAt_eq here px).symm.trans (by simpa using loses))
      exact decides.trans above (child_least decides inner notRoot within rfl here cy short)
    · exact sinking.others c x y notRoot within under px cy

/-- Sifting down leaves what is past its limit alone. -/
theorem getElem?_down (short : n ≤ h.length) {k : Nat} (past : n ≤ k) : (down less h i n)[k]? = h[k]? := by
  induction h, i using down.induct less n with
  | case1 h i leaf => rw [down,if_pos leaf]
  | case2 h i inner wins ih =>
    have cases := child_cases less h i n
    rw [down,if_neg inner,if_pos wins,ih (by rw [length_swap]; exact short),
      getElem?_swap (by omega) (by omega),if_neg (by omega),if_neg (by omega)]
  | case3 h i inner loses => rw [down,if_neg inner,if_neg loses]

/-- No element comes before the root. -/
theorem Ordered.root (ordered : Ordered R h n) (decides : Decides less R) {x : α} (root : h[0]? = some x) :
    ∀ k y, k < n → h[k]? = some y → R x y := by
  intro k
  induction k using Nat.strongRecOn with
  | ind k ih =>
    intro y within there
    by_cases top : k = 0
    · subst top
      cases root.symm.trans there
      exact decides.refl x
    · have less := parent_lt top
      obtain ⟨inside,_⟩ := List.getElem?_eq_some_iff.mp there
      obtain ⟨z,above⟩ : ∃ z, h[parent k]? = some z := ⟨_,List.getElem?_eq_getElem (by omega)⟩
      exact decides.trans (ih (parent k) less z (by omega) above) (ordered k z y top within above there)

end Sifting

section Queue
variable {α : Type} {less : α → α → Bool} {R : α → α → Prop} {h : List α}

theorem Push_perm (less : α → α → Bool) (h : List α) (x : α) : (Push less h x).Perm (x :: h) :=
  (up_perm less _ _).trans (List.perm_append_singleton x h)

theorem Push_ordered (decides : Decides less R) (ordered : Ordered R h h.length) (x : α) :
    Ordered R (Push less h x) (Push less h x).length := by
  have rising : Rising R (h ++ [x]) h.length := by
    refine ⟨fun c y z notRoot other py cz => ?_,fun c y z notRoot _ child py cz => ?_⟩
    · have less := parent_lt notRoot
      have inside : c < (h ++ [x]).length := (List.getElem?_eq_some_iff.mp cz).1
      rw [List.length_append,List.length_singleton] at inside
      rw [List.getElem?_append_left (by omega)] at py cz
      exact ordered c y z notRoot (by omega) py cz
    · have less := parent_lt notRoot
      have inside : c < (h ++ [x]).length := (List.getElem?_eq_some_iff.mp cz).1
      rw [List.length_append,List.length_singleton] at inside
      omega
  have after := rising.up decides (by simp)
  rwa [← (up_perm less (h ++ [x]) h.length).length_eq] at after

theorem Pop_perm {x : α} {rest : List α} (popped : Pop less h = some (x,rest)) : (x :: rest).Perm h := by
  unfold Pop at popped
  dsimp only at popped
  have perm := (down_perm less (swap h 0 (h.length - 1)) 0 (h.length - 1)).trans (swap_perm h 0 (h.length - 1))
  generalize down less (swap h 0 (h.length - 1)) 0 (h.length - 1) = sifted at popped perm
  obtain ⟨y,last,shape⟩ := Option.map_eq_some_iff.mp popped
  cases shape
  obtain ⟨inside,rfl⟩ := List.getElem?_eq_some_iff.mp last
  have turned := List.perm_append_singleton sifted[h.length - 1] (sifted.take (h.length - 1))
  rw [← List.take_succ_eq_append_getElem inside,List.take_of_length_le (by rw [perm.length_eq]; omega)] at turned
  exact turned.symm.trans perm

/-- The root is taken off. -/
theorem Pop_root {x : α} {rest : List α} (popped : Pop less h = some (x,rest)) : h[0]? = some x := by
  obtain ⟨y,last,shape⟩ := Option.map_eq_some_iff.mp popped
  cases shape
  have inside := (List.getElem?_eq_some_iff.mp last).1
  rw [(down_perm less _ 0 (h.length - 1)).length_eq,length_swap] at inside
  rwa [getElem?_down (by rw [length_swap]; omega) (Nat.le_refl _),getElem?_swap (by omega) inside,if_pos rfl] at last

/-- The element that is taken off comes before all that stay, which are a heap again. -/
theorem Pop_spec (decides : Decides less R) (ordered : Ordered R h h.length) (notEmpty : h ≠ []) :
    ∃ x rest, Pop less h = some (x,rest) ∧ (x :: rest).Perm h ∧ Ordered R rest rest.length ∧ ∀ y ∈ rest, R x y := by
  have positive : 0 < h.length := List.length_pos_of_ne_nil notEmpty
  obtain ⟨x,root⟩ : ∃ x, h[0]? = some x := ⟨_,List.getElem?_eq_getElem positive⟩
  have short : h.length - 1 ≤ (swap h 0 (h.length - 1)).length := by rw [length_swap]; omega
  have sinking : Sinking R (swap h 0 (h.length - 1)) 0 (h.length - 1) := by
    refine ⟨fun c y z notRoot within other py cz => ?_,fun c y z _ _ never => absurd rfl never⟩
    have less := parent_lt notRoot
    rw [getElem?_swap positive (by omega),if_neg (by omega),if_neg (by omega)] at py cz
    exact ordered c y z notRoot (by omega) py cz
  have last : (down less (swap h 0 (h.length - 1)) 0 (h.length - 1))[h.length - 1]? = some x := by
    rw [getElem?_down short (Nat.le_refl _),getElem?_swap positive (by omega),if_pos rfl,root]
  have after := sinking.down decides short
  have popped : Pop less h =
      some (x,(down less (swap h 0 (h.length - 1)) 0 (h.length - 1)).take (h.length - 1)) := by
    simp [Pop,last]
  have perm := Pop_perm popped
  refine ⟨x,_,popped,perm,fun c y z notRoot within py cz => ?_,fun y member => ?_⟩
  · have less := parent_lt notRoot
    rw [List.length_take] at within
    rw [List.getElem?_take_of_lt (by omega)] at py cz
    exact after c y z notRoot (by omega) py cz
  · obtain ⟨k,inside,rfl⟩ := List.mem_iff_getElem.mp (perm.subset (List.mem_cons_of_mem x member))
    exact ordered.root decides root k _ inside (List.getElem?_eq_getElem inside)

end Queue

section Fixing
variable {α : Type} {less : α → α → Bool} {R : α → α → Prop} {h : List α} {i n : Nat}

/-- The element at `i` may have to rise or to sink. -/
structure Nearly (R : α → α → Prop) (h : List α) (i : Nat) : Prop where
  others : ∀ c x y, c ≠ 0 → c ≠ i → parent c ≠ i → h[parent c]? = some x → h[c]? = some y → R x y
  across : ∀ c x y, c ≠ 0 → i ≠ 0 → parent c = i → h[parent i]? = some x → h[c]? = some y → R x y

theorem settle_perm (less : α → α → Bool) (h : List α) (i n : Nat) : (settle less h i n).Perm h := by
  rw [settle]
  split
  · exact down_perm less h i n
  · exact up_perm less h i

theorem Nearly.settle (decides : Decides less R) (nearly : Nearly R h i) (inside : i < h.length) :
    Ordered R (settle less h i h.length) h.length := by
  obtain ⟨here,found⟩ : ∃ here, h[i]? = some here := ⟨_,List.getElem?_eq_getElem inside⟩
  rw [Heaps.settle]
  split
  next falls =>
    simp only [sinks,Bool.and_eq_true,Bool.not_eq_true',decide_eq_false_iff_not] at falls
    obtain ⟨inner,wins⟩ := falls
    have cases := child_cases less h i h.length
    have below : parent (child less h i h.length) = i := by
      unfold parent
      omega
    obtain ⟨low,first⟩ : ∃ low, h[child less h i h.length]? = some low := ⟨_,List.getElem?_eq_getElem (by omega)⟩
    have before := decides.yes low here ((lessAt_eq first found).symm.trans wins)
    refine Sinking.down decides ⟨?_,?_⟩ (Nat.le_refl _)
    · intro c x y notRoot _ other px cy
      by_cases same : c = i
      · subst same
        obtain rfl : here = y := Option.some.inj (found.symm.trans cy)
        exact decides.trans (nearly.across _ x low (by omega) notRoot below px first) before
      · exact nearly.others c x y notRoot same other px cy
    · exact fun c x y notRoot _ high under px cy => nearly.across c x y notRoot high under px cy
  next stays =>
    refine Rising.up decides ⟨?_,?_⟩ inside
    · intro c x y notRoot other px cy
      by_cases under : parent c = i
      · have within : c < h.length := (List.getElem?_eq_some_iff.mp cy).1
        have inner : ¬ h.length ≤ 2 * i + 1 := by
          unfold parent at under
          omega
        have cases := child_cases less h i h.length
        obtain ⟨low,first⟩ : ∃ low, h[child less h i h.length]? = some low := ⟨_,List.getElem?_eq_getElem (by omega)⟩
        have loses : lessAt less h (child less h i h.length) i = false := by simpa [sinks,inner] using stays
        obtain rfl : here = x := Option.some.inj (found.symm.trans (under ▸ px))
        exact decides.trans (decides.no low here ((lessAt_eq first found).symm.trans loses))
          (child_least decides inner notRoot within under first cy (Nat.le_refl _))
      · exact nearly.others c x y notRoot other under px cy
    · exact fun c x y notRoot high under px cy => nearly.across c x y notRoot high under px cy

/-- A heap in which one element was exchanged is nearly one. -/
theorem Ordered.set (decides : Decides less R) (ordered : Ordered R h h.length) (x : α) : Nearly R (h.set i x) i := by
  refine ⟨?_,?_⟩
  · intro c y z notRoot other other' py cz
    rw [List.getElem?_set_ne (Ne.symm other')] at py
    rw [List.getElem?_set_ne (Ne.symm other)] at cz
    exact ordered c y z notRoot (List.getElem?_eq_some_iff.mp cz).1 py cz
  · intro c y z notRoot high under py cz
    have less := parent_lt notRoot
    have higher := parent_lt high
    rw [List.getElem?_set_ne (by omega)] at py
    rw [List.getElem?_set_ne (by omega)] at cz
    have within := (List.getElem?_eq_some_iff.mp cz).1
    obtain ⟨mid,there⟩ : ∃ mid, h[i]? = some mid := ⟨_,List.getElem?_eq_getElem (by omega)⟩
    exact decides.trans (ordered i y mid high (by omega) py there) (ordered c mid z notRoot within (under ▸ there) cz)

theorem Fix_ordered (decides : Decides less R) (ordered : Ordered R h h.length) (inside : i < h.length) (x : α) :
    Ordered R (Fix less (h.set i x) i) (Fix less (h.set i x) i).length := by
  have settled := (ordered.set decides x).settle decides (by simpa using inside)
  have same := (settle_perm less (h.set i x) i (h.set i x).length).length_eq
  rw [Fix,same]
  exact settled

section Last
variable {x : α} {j : Nat}

theorem getElem?_last (inside : i < h.length) : (h ++ [x])[i]? = h[i]? := List.getElem?_append_left inside

theorem lessAt_last (first : i < h.length) (second : j < h.length) : lessAt less (h ++ [x]) i j = lessAt less h i j := by
  rw [lessAt,lessAt,getElem?_last first,getElem?_last second]

theorem swap_last (first : i < h.length) (second : j < h.length) : swap (h ++ [x]) i j = swap h i j ++ [x] := by
  rw [swap,swap,getElem?_last first,getElem?_last second,List.getElem?_eq_getElem first,List.getElem?_eq_getElem second]
  simp only
  rw [List.set_append_left _ _ first,List.set_append_left _ _ (by simpa using second)]

theorem child_last : child less (h ++ [x]) i h.length = child less h i h.length := by
  unfold child
  by_cases both : 2 * i + 2 < h.length
  · rw [lessAt_last both (by omega)]
  · simp [both]

theorem up_last (inside : i < h.length) : up less (h ++ [x]) i = up less h i ++ [x] := by
  induction h, i using up.induct less with
  | case1 h => rw [up,if_pos rfl,up,if_pos rfl]
  | case2 h j positive wins ih =>
    have climbs := parent_lt positive
    have same : lessAt less (h ++ [x]) j (parent j) = lessAt less h j (parent j) := lessAt_last inside (by omega)
    rw [up,if_neg positive,same,if_pos wins,swap_last (by omega) inside,ih (by rw [length_swap]; omega)]
    conv_rhs => rw [up,if_neg positive,if_pos wins]
  | case3 h j positive loses =>
    have climbs := parent_lt positive
    have same : lessAt less (h ++ [x]) j (parent j) = lessAt less h j (parent j) := lessAt_last inside (by omega)
    rw [up,if_neg positive,same,if_neg loses,up,if_neg positive,if_neg loses]

theorem down_last (inside : i < h.length) (limit : n = h.length) : down less (h ++ [x]) i n = down less h i n ++ [x] := by
  induction h, i using down.induct less n with
  | case1 h i leaf => rw [down,if_pos leaf,down,if_pos leaf]
  | case2 h i inner wins ih =>
    subst limit
    have cases := child_cases less h i h.length
    have same : lessAt less (h ++ [x]) (child less h i h.length) i = lessAt less h (child less h i h.length) i :=
      lessAt_last (by omega) inside
    rw [down,if_neg inner,child_last,same,if_pos wins,swap_last inside (by omega),
      ih (by rw [length_swap]; omega) (by rw [length_swap])]
    conv_rhs => rw [down,if_neg inner,if_pos wins]
  | case3 h i inner loses =>
    subst limit
    have cases := child_cases less h i h.length
    have same : lessAt less (h ++ [x]) (child less h i h.length) i = lessAt less h (child less h i h.length) i :=
      lessAt_last (by omega) inside
    rw [down,if_neg inner,child_last,same,if_neg loses,down,if_neg inner,if_neg loses]

theorem settle_last (inside : i < h.length) : settle less (h ++ [x]) i h.length = settle less h i h.length ++ [x] := by
  have same : sinks less (h ++ [x]) i h.length = sinks less h i h.length := by
    rw [sinks,sinks,child_last]
    by_cases leaf : h.length ≤ 2 * i + 1
    · simp [leaf]
    · have cases := child_cases less h i h.length
      rw [lessAt_last (by omega) inside]
  rw [settle,settle,same,up_last inside,down_last inside rfl]
  split
  · rfl
  · rfl

end Last

/-- The element at `i` is taken off, and a heap stays. -/
theorem Remove_spec (decides : Decides less R) (ordered : Ordered R h h.length) {x : α} (found : h[i]? = some x) :
    ∃ rest, Remove less h i = some (x,rest) ∧ (x :: rest).Perm h ∧ Ordered R rest rest.length := by
  obtain ⟨inside,rfl⟩ := List.getElem?_eq_some_iff.mp found
  have notEmpty : h ≠ [] := List.ne_nil_of_length_pos (by omega)
  obtain ⟨front,last,rfl⟩ : ∃ front last, h = front ++ [last] := ⟨_,_,(List.dropLast_append_getLast notEmpty).symm⟩
  have frontOrdered : Ordered R front front.length := by
    intro c x y notRoot within px cy
    have less := parent_lt notRoot
    exact ordered c x y notRoot (by simp; omega) ((getElem?_last (by omega)).trans px) ((getElem?_last within).trans cy)
  have length : (front ++ [last]).length - 1 = front.length := by simp
  by_cases same : front.length = i
  · subst same
    refine ⟨front,?_,?_,frontOrdered⟩
    · simp [Remove]
    · simpa using (List.perm_append_singleton last front).symm
  · have within : i < front.length := by
      simp only [List.length_append,List.length_singleton] at inside
      omega
    have exchanged : swap (front ++ [last]) i front.length = front.set i last ++ [front[i]] := by
      rw [swap,getElem?_last within,List.getElem?_eq_getElem within,List.getElem?_concat_length]
      simp only
      rw [List.set_append_left _ _ within,List.set_append_right _ _ (by simp)]
      simp
    have settled := @settle_last _ less (front.set i last) i front[i] (by simpa using within)
    rw [List.length_set] at settled
    have perm := settle_perm less (front.set i last) i front.length
    refine ⟨settle less (front.set i last) i front.length,?_,?_,?_⟩
    · simp only [Remove,length,if_neg same,exchanged,settled]
      have size : (settle less (front.set i last) i front.length).length = front.length := by
        rw [perm.length_eq,List.length_set]
      rw [List.getElem_append_left within,List.getElem?_append_right (by omega),List.take_append_of_le_length (by omega),
        List.take_of_length_le (by omega)]
      simp [size]
    · have turned : (front[i] :: front.set i last).Perm (front ++ [last]) := by
        have shape := swap_perm (front ++ [last]) i front.length
        rw [exchanged] at shape
        exact (List.perm_append_singleton front[i] (front.set i last)).symm.trans shape
      rw [List.getElem_append_left within]
      exact (perm.cons front[i]).trans turned
    · have after := Fix_ordered decides frontOrdered within last
      rw [Fix,List.length_set] at after
      exact after

end Fixing

end Vbe.Library.Heaps
