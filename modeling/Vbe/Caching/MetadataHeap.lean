import Vbe.Caching.Blobs
import Vbe.Library.Heaps
import Mathlib.Algebra.BigOperators.Group.List.Basic
import Mathlib.Data.List.Nodup
import Mathlib.Data.List.Perm.Basic
import Mathlib.Tactic.Tauto

/-! The heap in which a cache tracks its items, the oldest first. The map from names to
positions is the position at which a name is found. -/
namespace Vbe.Caching
open Vbe.Index (BlobID)
open Vbe.Library

/-- An item as it is tracked: its length may be the length that a caller asked for. -/
structure CachedItem where
  BlobID : BlobID
  Length : Int
  Timestamp : Time
deriving DecidableEq

structure ContentMetadataHeap where
  data : List CachedItem
  totalDataBytes : Int
deriving DecidableEq

namespace ContentMetadataHeap

def Less (x y : CachedItem) : Bool := decide (x.Timestamp < y.Timestamp)

def index (h : ContentMetadataHeap) (blobID : BlobID) : Option Nat := h.data.findIdx? fun item => item.BlobID = blobID

def Push (h : ContentMetadataHeap) (bm : CachedItem) : ContentMetadataHeap :=
  ⟨Heaps.Push Less h.data bm,h.totalDataBytes + bm.Length⟩

def Pop (h : ContentMetadataHeap) : ContentMetadataHeap :=
  match Heaps.Pop Less h.data with
  | some (item,rest) => ⟨rest,h.totalDataBytes - item.Length⟩
  | none => h

def Remove (h : ContentMetadataHeap) (i : Nat) : ContentMetadataHeap :=
  match Heaps.Remove Less h.data i with
  | some (item,rest) => ⟨rest,h.totalDataBytes - item.Length⟩
  | none => h

/-- An item that is tracked already is exchanged only for a newer one. -/
def AddOrUpdate (h : ContentMetadataHeap) (bm : CachedItem) : ContentMetadataHeap :=
  match h.index bm.BlobID with
  | none => h.Push bm
  | some i =>
    match h.data[i]? with
    | none => h
    | some old =>
      if old.Timestamp < bm.Timestamp then
        ⟨Heaps.Fix Less (h.data.set i bm) i,h.totalDataBytes + (bm.Length - old.Length)⟩
      else h

/-- An item is at least as old as another one. -/
def Older (x y : CachedItem) : Prop := x.Timestamp ≤ y.Timestamp

theorem decides : Heaps.Decides Less Older where
  refl x := Int.le_refl x.Timestamp
  trans := Int.le_trans
  yes _ _ less := Int.le_of_lt (of_decide_eq_true less)
  no _ _ less := Int.not_lt.mp (of_decide_eq_false less)

/-- The total is that of the items, no name is tracked twice and no item is older than the one above it. -/
structure Sound (h : ContentMetadataHeap) : Prop where
  total : h.totalDataBytes = (h.data.map (·.Length)).sum
  names : (h.data.map (·.BlobID)).Nodup
  ordered : Heaps.Ordered Older h.data h.data.length

section Operations
variable {h : ContentMetadataHeap} {bm item old : CachedItem} {blobID : BlobID} {i : Nat}

theorem sound_empty : Sound ⟨[],0⟩ := ⟨rfl,List.nodup_nil,fun _ _ _ _ never => absurd never (Nat.not_lt_zero _)⟩

theorem sum_perm {l l' : List CachedItem} (perm : l.Perm l') : (l.map (·.Length)).sum = (l'.map (·.Length)).sum :=
  (perm.map _).sum_eq

theorem Sound.Push (sound : h.Sound) (fresh : ∀ item ∈ h.data, item.BlobID ≠ bm.BlobID) : (h.Push bm).Sound := by
  have perm := Heaps.Push_perm Less h.data bm
  refine ⟨?_,?_,Heaps.Push_ordered decides sound.ordered bm⟩
  · have sums := sum_perm perm
    rw [List.map_cons,List.sum_cons] at sums
    change h.totalDataBytes + bm.Length = _
    rw [sound.total]
    exact (Int.add_comm _ _).trans sums.symm
  · refine (perm.map _).nodup_iff.mpr (List.nodup_cons.mpr ⟨?_,sound.names⟩)
    intro member
    obtain ⟨item,there,same⟩ := List.mem_map.mp member
    exact fresh item there same

@[simp] theorem mem_Push : item ∈ (h.Push bm).data ↔ item = bm ∨ item ∈ h.data :=
  (Heaps.Push_perm Less h.data bm).mem_iff.trans List.mem_cons

theorem Push_empty (bm : CachedItem) : Push ⟨[],0⟩ bm = ⟨[bm],bm.Length⟩ := by
  simp [ContentMetadataHeap.Push,Heaps.Push,Heaps.up]

theorem Sound.Push_all {l : List CachedItem} (sound : h.Sound) (names : ((l ++ h.data).map (·.BlobID)).Nodup) :
    (l.foldl ContentMetadataHeap.Push h).Sound ∧
      ∀ item, item ∈ (l.foldl ContentMetadataHeap.Push h).data ↔ item ∈ l ∨ item ∈ h.data := by
  induction l generalizing h with
  | nil => exact ⟨sound,fun item => by simp⟩
  | cons bm l ih =>
    have shape : ((l ++ (h.Push bm).data).map (·.BlobID)).Perm ((bm :: l ++ h.data).map (·.BlobID)) :=
      ((List.Perm.append_left l (Heaps.Push_perm Less h.data bm)).trans List.perm_middle).map _
    have fresh : ∀ item ∈ h.data, item.BlobID ≠ bm.BlobID := fun item member same =>
      (List.nodup_cons.mp names).1 (List.mem_map.mpr ⟨item,by simp [member],same⟩)
    obtain ⟨after,members⟩ := ih (sound.Push fresh) (shape.nodup_iff.mpr names)
    refine ⟨after,fun item => (members item).trans ?_⟩
    rw [mem_Push,List.mem_cons]
    tauto

theorem Sound.same (sound : h.Sound) (first : item ∈ h.data) (second : old ∈ h.data) (names : item.BlobID = old.BlobID) :
    item = old := List.inj_on_of_nodup_map sound.names first second names

/-- What is taken off is the oldest item. -/
theorem Sound.Pop (sound : h.Sound) (found : h.data[0]? = some old) :
    h.Pop.Sound ∧ (old :: h.Pop.data).Perm h.data ∧ ∀ item ∈ h.data, Older old item := by
  have notEmpty : h.data ≠ [] := by
    rintro empty
    simp [empty] at found
  obtain ⟨x,rest,popped,perm,ordered,oldest⟩ := Heaps.Pop_spec decides sound.ordered notEmpty
  obtain rfl : x = old := Option.some.inj ((Heaps.Pop_root popped).symm.trans found)
  have after : h.Pop = ⟨rest,h.totalDataBytes - x.Length⟩ := by rw [ContentMetadataHeap.Pop,popped]
  rw [after]
  refine ⟨⟨?_,?_,ordered⟩,perm,fun item member => ?_⟩
  · have sums := sum_perm perm
    rw [List.map_cons,List.sum_cons] at sums
    rw [sound.total]
    simp only
    omega
  · have names := (perm.map (·.BlobID)).nodup_iff.mpr sound.names
    exact (List.nodup_cons.mp names).2
  · rcases List.mem_cons.mp (perm.mem_iff.mpr member) with rfl | later
    · exact Int.le_refl _
    · exact oldest item later

theorem index_some (found : h.index blobID = some i) : ∃ item, h.data[i]? = some item ∧ item.BlobID = blobID := by
  obtain ⟨inside,same,_⟩ := List.findIdx?_eq_some_iff_getElem.mp found
  exact ⟨_,List.getElem?_eq_getElem inside,of_decide_eq_true same⟩

theorem index_none : h.index blobID = none ↔ ∀ item ∈ h.data, item.BlobID ≠ blobID := by
  simp [index,List.findIdx?_eq_none_iff]

theorem Sound.Remove (sound : h.Sound) (found : h.index blobID = some i) :
    (h.Remove i).Sound ∧ ∀ item, item ∈ (h.Remove i).data ↔ item ∈ h.data ∧ item.BlobID ≠ blobID := by
  obtain ⟨old,there,rfl⟩ := index_some found
  obtain ⟨rest,removed,perm,ordered⟩ := Heaps.Remove_spec decides sound.ordered there
  have after : h.Remove i = ⟨rest,h.totalDataBytes - old.Length⟩ := by rw [ContentMetadataHeap.Remove,removed]
  have names := List.nodup_cons.mp ((perm.map (·.BlobID)).nodup_iff.mpr sound.names)
  rw [after]
  refine ⟨⟨?_,names.2,ordered⟩,fun item => ?_⟩
  · have sums := sum_perm perm
    rw [List.map_cons,List.sum_cons] at sums
    rw [sound.total]
    simp only
    omega
  · have member := perm.mem_iff (a := item)
    rw [List.mem_cons] at member
    rw [← member]
    constructor
    · exact fun stays => ⟨Or.inr stays,fun same => names.1 (List.mem_map.mpr ⟨item,stays,same⟩)⟩
    · rintro ⟨rfl | stays,other⟩
      · exact absurd rfl other
      · exact stays

theorem sum_set {l : List CachedItem} (there : l[i]? = some old) (bm : CachedItem) :
    (l.map (·.Length)).sum + (bm.Length - old.Length) = ((l.set i bm).map (·.Length)).sum := by
  obtain ⟨inside,rfl⟩ := List.getElem?_eq_some_iff.mp there
  have before := sum_perm (List.getElem_cons_eraseIdx_perm inside)
  have after := sum_perm (List.set_perm_cons_eraseIdx inside bm)
  rw [List.map_cons,List.sum_cons] at before after
  omega

/-- Exchanging the item at a position for another one of the same name. -/
theorem mem_set (sound : h.Sound) (there : h.data[i]? = some old) (same : old.BlobID = bm.BlobID) :
    item ∈ h.data.set i bm ↔ item = bm ∨ item ∈ h.data ∧ item.BlobID ≠ bm.BlobID := by
  obtain ⟨inside,rfl⟩ := List.getElem?_eq_some_iff.mp there
  have perm := (List.set_perm_cons_eraseIdx inside bm).mem_iff (a := item)
  have whole := (List.getElem_cons_eraseIdx_perm inside).mem_iff (a := item)
  have names := List.nodup_cons.mp (((List.getElem_cons_eraseIdx_perm inside).map (·.BlobID)).nodup_iff.mpr sound.names)
  rw [List.mem_cons] at perm whole
  rw [perm,← whole]
  constructor
  · rintro (rfl | stays)
    · exact Or.inl rfl
    · exact Or.inr ⟨Or.inr stays,fun equal => names.1 (List.mem_map.mpr ⟨item,stays,equal.trans same.symm⟩)⟩
  · rintro (rfl | ⟨rfl | stays,other⟩)
    · exact Or.inl rfl
    · exact absurd same other
    · exact Or.inr stays

/-- An item that is tracked and not older stays; otherwise the item is tracked from now on. -/
theorem Sound.AddOrUpdate (sound : h.Sound) (bm : CachedItem) :
    (∃ old ∈ h.data, old.BlobID = bm.BlobID ∧ bm.Timestamp ≤ old.Timestamp ∧ h.AddOrUpdate bm = h) ∨
    (∀ old ∈ h.data, old.BlobID = bm.BlobID → old.Timestamp < bm.Timestamp) ∧ (h.AddOrUpdate bm).Sound ∧
      ∀ item, item ∈ (h.AddOrUpdate bm).data ↔ item = bm ∨ item ∈ h.data ∧ item.BlobID ≠ bm.BlobID := by
  cases found : h.index bm.BlobID with
  | none =>
    have fresh := index_none.mp found
    have after : h.AddOrUpdate bm = h.Push bm := by simp only [ContentMetadataHeap.AddOrUpdate,found]
    rw [after]
    refine Or.inr ⟨fun old member same => absurd same (fresh old member),sound.Push fresh,fun item => ?_⟩
    rw [mem_Push]
    exact or_congr_right ⟨fun member => ⟨member,fresh item member⟩,And.left⟩
  | some i =>
    obtain ⟨old,there,same⟩ := index_some found
    have member := List.mem_of_getElem? there
    have inside := (List.getElem?_eq_some_iff.mp there).1
    by_cases newer : old.Timestamp < bm.Timestamp
    · have after : h.AddOrUpdate bm =
          ⟨Heaps.Fix Less (h.data.set i bm) i,h.totalDataBytes + (bm.Length - old.Length)⟩ := by
        simp only [ContentMetadataHeap.AddOrUpdate,found,there,if_pos newer]
      have perm := Heaps.settle_perm Less (h.data.set i bm) i (h.data.set i bm).length
      rw [after]
      refine Or.inr ⟨?_,⟨?_,?_,Heaps.Fix_ordered decides sound.ordered inside bm⟩,fun item => ?_⟩
      · intro other tracked equal
        rw [sound.same tracked member (equal.trans same.symm)]
        exact newer
      · change h.totalDataBytes + (bm.Length - old.Length) = _
        rw [sound.total,sum_set there bm]
        exact (sum_perm perm).symm
      · refine (perm.map _).nodup_iff.mpr ?_
        have unchanged : (h.data.set i bm).map (·.BlobID) = h.data.map (·.BlobID) := by
          refine List.ext_getElem? fun k => ?_
          rw [List.map_set,List.getElem?_set]
          split
          next here =>
            subst here
            rw [if_pos (by simpa using inside),List.getElem?_map,there,Option.map_some,same]
          next => rfl
        rw [unchanged]
        exact sound.names
      · exact perm.mem_iff.trans (mem_set sound there same)
    · refine Or.inl ⟨old,member,same,Int.not_lt.mp newer,?_⟩
      simp only [ContentMetadataHeap.AddOrUpdate,found,there,if_neg newer]

end Operations

end ContentMetadataHeap

end Vbe.Caching
