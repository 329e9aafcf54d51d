import Vbe.Library.Listings

/-! Maps whose values carry their keys, with the values in the order in which a loop visits them. -/
namespace Vbe.Library

structure Keyed {α κ : Type} (key : α → κ) where
  values : List α
  nodup : (values.map key).Nodup

namespace Keyed
variable {α κ : Type} {key : α → κ} [DecidableEq κ] {m : Keyed key}
open Listings

def empty : Keyed key := ⟨[],List.nodup_nil⟩

def get? (m : Keyed key) (k : κ) : Option α := m.values.find? fun a => key a = k

def filter (m : Keyed key) (p : α → Bool) : Keyed key := ⟨m.values.filter p,m.nodup.sublist (List.filter_sublist.map key)⟩

def erase (m : Keyed key) (k : κ) : Keyed key := m.filter fun a => key a ≠ k

def set (m : Keyed key) (a : α) : Keyed key where
  values := (m.erase (key a)).values ++ [a]
  nodup := by
    rw [List.map_append,List.nodup_append]
    refine ⟨(m.erase (key a)).nodup,by simp,?_⟩
    rintro k member l single rfl
    obtain ⟨b,kept,rfl⟩ := List.mem_map.mp member
    have other : key b ≠ key a := by simpa using (List.mem_filter.mp kept).2
    exact other (by simpa using single)

def setAll (m : Keyed key) (l : List α) : Keyed key := l.foldl set m

theorem get?_key {k : κ} {a : α} (found : m.get? k = some a) : key a = k := by
  simpa using List.find?_some found

theorem mem_values {a : α} : a ∈ m.values ↔ m.get? (key a) = some a := by
  constructor
  · intro member
    obtain ⟨before,after,split⟩ := List.append_of_mem member
    have nodup := m.nodup
    rw [split,List.map_append,List.map_cons,List.nodup_append] at nodup
    rw [get?,split,List.find?_append,List.find?_cons_of_pos (by simp)]
    have absent : before.find? (fun b => decide (key b = key a)) = none := by
      rw [List.find?_eq_none]
      intro b earlier same
      exact nodup.2.2 (key b) (List.mem_map_of_mem earlier) (key a) List.mem_cons_self (by simpa using same)
    rw [absent]
    rfl
  · exact List.mem_of_find?_eq_some

theorem lists (m : Keyed key) : Lists key m.get? m.values := ⟨m.nodup,fun _ => mem_values⟩

@[simp] theorem get?_empty (k : κ) : (empty : Keyed key).get? k = none := rfl

theorem get?_filter (p : α → Bool) (k : κ) : (m.filter p).get? k = (m.get? k).filter p := by
  ext a
  rw [Option.filter_eq_some_iff]
  constructor
  · intro found
    obtain rfl := get?_key found
    obtain ⟨member,kept⟩ := List.mem_filter.mp (mem_values.mpr found)
    exact ⟨mem_values.mp member,kept⟩
  · rintro ⟨found,kept⟩
    obtain rfl := get?_key found
    exact mem_values.mp (List.mem_filter.mpr ⟨mem_values.mpr found,kept⟩)

theorem get?_erase (k l : κ) : (m.erase k).get? l = if l = k then none else m.get? l := by
  rw [erase,get?_filter]
  cases found : m.get? l with
  | none => simp
  | some a =>
    obtain rfl := get?_key found
    by_cases same : key a = k <;> simp [same]

theorem get?_set (a : α) (k : κ) : (m.set a).get? k = if k = key a then some a else m.get? k := by
  by_cases same : k = key a
  · subst same
    rw [if_pos rfl]
    exact mem_values.mp (List.mem_append_right _ List.mem_cons_self)
  · have erased := get?_erase (m := m) (key a) k
    rw [if_neg same] at erased
    rw [if_neg same,← erased,get?,set,List.find?_append,get?]
    simp [Ne.symm same]

theorem mem_set {a b : α} (member : b ∈ (m.set a).values) : b ∈ m.values ∨ b = a := by
  rcases List.mem_append.mp member with kept | new
  · exact .inl (List.mem_filter.mp kept).1
  · exact .inr (List.mem_singleton.mp new)

theorem mem_setAll {l : List α} {b : α} (member : b ∈ (m.setAll l).values) : b ∈ m.values ∨ b ∈ l := by
  induction l generalizing m with
  | nil => exact .inl member
  | cons a l ih =>
    rcases ih member with before | later
    · rcases mem_set before with before | rfl
      · exact .inl before
      · exact .inr List.mem_cons_self
    · exact .inr (List.mem_cons_of_mem _ later)

theorem eq_of_key {a b : α} (first : a ∈ m.values) (second : b ∈ m.values) (same : key a = key b) : a = b := by
  have found := mem_values.mp first
  rw [same,mem_values.mp second] at found
  exact (Option.some.inj found).symm

theorem mem_set_iff {a b : α} :
    b ∈ (m.set a).values ↔ b = a ∨ b ∈ m.values ∧ key b ≠ key a := by
  rw [mem_values,get?_set]
  by_cases same : key b = key a
  · rw [if_pos same]
    constructor
    · intro equal
      exact .inl (Option.some.inj equal).symm
    · rintro (rfl | ⟨_,other⟩)
      · rfl
      · exact absurd same other
  · rw [if_neg same,← mem_values]
    constructor
    · exact fun member => .inr ⟨member,same⟩
    · rintro (rfl | ⟨member,_⟩)
      · exact absurd rfl same
      · exact member

theorem mem_erase_iff {k : κ} {b : α} :
    b ∈ (m.erase k).values ↔ b ∈ m.values ∧ key b ≠ k := by
  rw [erase,filter,List.mem_filter]
  simp

end Keyed

end Vbe.Library
