import Mathlib.Data.List.Dedup
import Mathlib.Data.List.Perm.Basic

/-! Lists that hold exactly what a lookup finds, each found element once. -/
namespace Vbe.Library.Listings

variable {α κ : Type} {key : α → κ} {lookup : κ → Option α} {l l' : List α}

/-- What the lookup finds under each key is in the list once, and nothing else is. -/
structure Lists (key : α → κ) (lookup : κ → Option α) (l : List α) : Prop where
  nodup : (l.map key).Nodup
  mem : ∀ i, i ∈ l ↔ lookup (key i) = some i

/-- A list is such a listing where it has under each key what the lookup finds. -/
theorem lists_iff [DecidableEq κ] (own : ∀ c i, lookup c = some i → key i = c) :
    Lists key lookup l ↔ ∀ c, l.filter (fun i => key i = c) = (lookup c).toList := by
  constructor
  · intro lists c
    have nodup : (l.filter fun i => key i = c).Nodup := (List.Nodup.of_map key lists.nodup).filter _
    have same : (l.filter fun i => key i = c).Perm (lookup c).toList := by
      rw [List.perm_ext_iff_of_nodup nodup (by cases lookup c <;> simp)]
      intro i
      rw [List.mem_filter,lists.mem,Option.mem_toList,decide_eq_true_eq]
      constructor
      · rintro ⟨found,rfl⟩
        exact found
      · intro found
        have same := own c i found
        exact ⟨same ▸ found,same⟩
    cases found : lookup c with
    | none => simpa [found] using same
    | some i => simpa [found] using same
  · intro entries
    refine ⟨List.nodup_iff_count_le_one.mpr fun c => ?_,fun i => ?_⟩
    · have length : (l.map key).count c = (l.filter fun i => key i = c).length := by
        rw [List.count,List.countP_map,List.countP_eq_length_filter]
        rfl
      rw [length,entries c]
      cases lookup c <;> simp
    · have member : i ∈ l ↔ i ∈ l.filter fun j => key j = key i := by simp
      rw [member,entries,Option.mem_toList]

theorem Lists.perm (lists : Lists key lookup l) (lists' : Lists key lookup l') : l.Perm l' := by
  rw [List.perm_ext_iff_of_nodup (List.Nodup.of_map key lists.nodup) (List.Nodup.of_map key lists'.nodup)]
  intro i
  rw [lists.mem,lists'.mem]

/-- Leaving out elements by a test leaves out what the test refuses. -/
theorem Lists.filter (lists : Lists key lookup l) (p : α → Bool) :
    Lists key (fun c => (lookup c).filter p) (l.filter p) := by
  refine ⟨lists.nodup.sublist (List.filter_sublist.map key),fun i => ?_⟩
  rw [List.mem_filter,lists.mem,Option.filter_eq_some_iff]

/-- The keys of a list, each looked up once. -/
theorem lists_filterMap [DecidableEq κ] {keys : List κ} (own : ∀ c i, lookup c = some i → key i = c) (nodup : keys.Nodup) :
    Lists key (fun c => if c ∈ keys then lookup c else none) (keys.filterMap lookup) := by
  refine (lists_iff fun c i found => own c i ?_).mpr fun c => ?_
  · split at found
    · exact found
    · contradiction
  · induction keys with
    | nil => rfl
    | cons k keys ih =>
      obtain ⟨absent,rest⟩ := List.nodup_cons.mp nodup
      have tail := ih rest
      by_cases same : c = k
      · subst same
        simp only [absent] at tail
        cases found : lookup c with
        | none => simpa [found] using tail
        | some i => simpa [found,own c i found] using tail
      · have other : ∀ i, lookup k = some i → key i ≠ c := fun i found equal => same (equal.symm.trans (own k i found))
        cases found : lookup k with
        | none => simpa [found,same] using tail
        | some i => simpa [found,same,other i found] using tail

theorem Lists.of_perm (lists : Lists key lookup l) (perm : l'.Perm l) : Lists key lookup l' :=
  ⟨(perm.map key).nodup_iff.mpr lists.nodup,fun i => perm.mem_iff.trans (lists.mem i)⟩

/-- What the elements of a listing are turned into, under the same keys. -/
theorem Lists.map {β : Type} {f : α → β} {key' : β → κ} (lists : Lists key lookup l) (own : ∀ a, key' (f a) = key a) :
    Lists key' (fun k => (lookup k).map f) (l.map f) := by
  refine ⟨?_,fun b => ?_⟩
  · rw [List.map_map]
    exact (List.map_congr_left fun a _ => own a) ▸ lists.nodup
  · rw [List.mem_map,Option.map_eq_some_iff]
    constructor
    · rintro ⟨a,member,rfl⟩
      exact ⟨a,own a ▸ (lists.mem a).mp member,rfl⟩
    · rintro ⟨a,found,rfl⟩
      exact ⟨a,(lists.mem a).mpr (own a ▸ found),rfl⟩

/-- A listing with what another one has under keys that it has not. -/
theorem Lists.append [DecidableEq κ] {lookup' : κ → Option α} (lists : Lists key lookup l) (lists' : Lists key lookup' l')
    (p : α → Bool) {first : κ → Option α} (hides : ∀ k, lookup k = (first k).filter p) :
    Lists key (fun k => ((first k).or (lookup' k)).filter p)
      (l ++ (l'.filter p).filter fun a => (first (key a)).isNone) := by
  refine ⟨?_,fun a => ?_⟩
  · rw [List.map_append,List.nodup_append]
    refine ⟨lists.nodup,((lists'.nodup.sublist (List.filter_sublist.map key)).sublist (List.filter_sublist.map key)),?_⟩
    rintro k member j later rfl
    obtain ⟨a,inside,rfl⟩ := List.mem_map.mp member
    obtain ⟨b,kept,same⟩ := List.mem_map.mp later
    have hidden : (first (key b)).isNone = true := (List.mem_filter.mp kept).2
    have found := (hides (key a)).symm.trans ((lists.mem a).mp inside)
    rw [same,Option.isNone_iff_eq_none] at hidden
    simp [hidden] at found
  · rw [List.mem_append,lists.mem,List.mem_filter,List.mem_filter,lists'.mem,hides]
    cases first (key a) <;> simp [Option.filter_eq_some_iff]

end Vbe.Library.Listings
