import Vbe.Index.Builder
import Vbe.Library.Heaps

/-! Several indexes read as one. A lookup asks them one after the other; an iteration
merges their entries through a heap of channels. A channel is the list of entries it
still delivers. -/
namespace Vbe.Index
open Vbe.Library.Heaps

/-- The `Index` interface. `Iterate` yields what a callback that never fails is called
with, and the error that ended the iteration early. -/
structure OpenedIndex (ε : Type) where
  ApproximateCount : Nat
  GetInfo : ID → Except ε (Option Info)
  Iterate : IDRange → List Info × Option ε

/-- The head of a channel and the rest of it. -/
structure NextInfo where
  it : Info
  ch : List Info

/-- `nextInfoHeap.Less`, true of ties. -/
def nextInfoLess (a b : NextInfo) : Bool :=
  if a.it.contentID ≠ b.it.contentID then a.it.contentID.less b.it.contentID
  else !contentInfoGreaterThanStruct a.it b.it

/-- Takes the next entry off a channel and puts it on the heap, unless the channel is closed. -/
def receive (h : List NextInfo) : List Info → List NextInfo
  | [] => h
  | it :: ch => Push nextInfoLess h ⟨it,ch⟩

/-- The entries that have not left the heap and its channels. -/
def waiting (h : List NextInfo) : List Info := h.flatMap fun n => n.it :: n.ch

theorem waiting_perm {h h' : List NextInfo} (same : h.Perm h') : (waiting h).Perm (waiting h') := same.flatMap_right _

theorem receive_perm (h : List NextInfo) (l : List Info) : (waiting (receive h l)).Perm (l ++ waiting h) := by
  cases l with
  | nil => exact List.Perm.refl _
  | cons it ch => exact waiting_perm (Push_perm nextInfoLess h ⟨it,ch⟩)

theorem popped_perm {h rest : List NextInfo} {next : NextInfo} (popped : Pop nextInfoLess h = some (next,rest)) :
    (next.it :: waiting (receive rest next.ch)).Perm (waiting h) := by
  have kept := (receive_perm rest next.ch).cons next.it
  exact kept.trans (waiting_perm (Pop_perm popped))

theorem popped_length {h rest : List NextInfo} {next : NextInfo} (popped : Pop nextInfoLess h = some (next,rest)) :
    (waiting (receive rest next.ch)).length < (waiting h).length := by
  rw [← (popped_perm popped).length_eq,List.length_cons]
  exact Nat.lt_succ_self _

namespace Merged
variable {ε : Type}

/-- The error that ends the iteration of one index is dropped. -/
def iterateChan (r : IDRange) (ndx : OpenedIndex ε) : List Info := (ndx.Iterate r).1

def minHeap (r : IDRange) (m : List (OpenedIndex ε)) : List NextInfo :=
  m.foldl (fun h ndx => receive h (iterateChan r ndx)) []

/-- The loop over the heap, with the pending item. -/
def iterateLoop (h : List NextInfo) (pendingItem : Option Info) : List Info :=
  match _ : Pop nextInfoLess h with
  | none => pendingItem.toList
  | some (next,rest) =>
    match pendingItem with
    | none => iterateLoop (receive rest next.ch) (some next.it)
    | some pending =>
      if pending.contentID ≠ next.it.contentID then
        pending :: iterateLoop (receive rest next.ch) (some next.it)
      else if contentInfoGreaterThanStruct next.it pending then
        iterateLoop (receive rest next.ch) (some next.it)
      else iterateLoop (receive rest next.ch) (some pending)
termination_by (waiting h).length
decreasing_by all_goals exact popped_length (by assumption)

def Iterate (m : List (OpenedIndex ε)) (r : IDRange) : List Info × Option ε := (iterateLoop (minHeap r m) none,none)

def getInfoLoop (id : ID) : List (OpenedIndex ε) → Option Info → Except ε (Option Info)
  | [], result => .ok result
  | ndx :: rest, result =>
    match ndx.GetInfo id with
    | .error e => .error e
    | .ok none => getInfoLoop id rest result
    | .ok (some tmp) => getInfoLoop id rest (some (Builder.winner result tmp))

def GetInfo (m : List (OpenedIndex ε)) (id : ID) : Except ε (Option Info) := getInfoLoop id m none

def ApproximateCount (m : List (OpenedIndex ε)) : Nat := m.foldl (fun c ndx => c + ndx.ApproximateCount) 0

/-- `Merged` implements `Index`. -/
def toIndex (m : List (OpenedIndex ε)) : OpenedIndex ε := ⟨ApproximateCount m,GetInfo m,Iterate m⟩

end Merged

section Resolution

/-- The entries that a list of entries comes down to: one for each identifier, which no
other beats, in the order of the identifiers. -/
structure Resolves (l source : List Info) : Prop where
  sorted : l.Pairwise keyLess
  inside : ∀ i ∈ l, i ∈ source
  covered : ∀ x ∈ source, ∃ y ∈ l, y.contentID = x.contentID ∧ x.rank ≤ y.rank

theorem Resolves.perm {l source source' : List Info} (resolves : Resolves l source) (same : source.Perm source') :
    Resolves l source' :=
  ⟨resolves.sorted,fun i member => same.mem_iff.mp (resolves.inside i member),
    fun x member => resolves.covered x (same.mem_iff.mpr member)⟩

theorem Resolves.unbeaten {l source : List Info} (resolves : Resolves l source) {i j : Info} (member : i ∈ l)
    (there : j ∈ source) (same : j.contentID = i.contentID) : j.rank ≤ i.rank := by
  obtain ⟨y,inside,own,le⟩ := resolves.covered j there
  have equal := eq_of_contentID_eq resolves.sorted inside member (own.trans same)
  exact equal ▸ le

/-- Up to ties, what a list of entries comes down to does not depend on its order. -/
theorem Resolves.ruled_congr {l l' source source' : List Info} (resolves : Resolves l source)
    (resolves' : Resolves l' source') (same : ∀ i, i ∈ source ↔ i ∈ source') :
    l.map (fun i => (i.contentID,i.ruled)) = l'.map fun i => (i.contentID,i.ruled) := by
  have less {l : List Info} (sorted : l.Pairwise keyLess) : (l.map fun i => (i.contentID,i.ruled)).Pairwise
      fun x y => contentIDToBytes x.1 < contentIDToBytes y.1 := List.pairwise_map.mpr sorted
  have nodup {l : List Info} (sorted : l.Pairwise keyLess) : (l.map fun i => (i.contentID,i.ruled)).Nodup :=
    (less sorted).imp fun below equal => absurd (equal ▸ below) (lt_irrefl _)
  have half {l l' source source' : List Info} (resolves : Resolves l source) (resolves' : Resolves l' source')
      (same : ∀ i, i ∈ source ↔ i ∈ source') {x : ID × Int × Bool × BlobID}
      (member : x ∈ l.map fun i => (i.contentID,i.ruled)) : x ∈ l'.map fun i => (i.contentID,i.ruled) := by
    obtain ⟨i,there,rfl⟩ := List.mem_map.mp member
    obtain ⟨y,inside,own,le⟩ := resolves'.covered i ((same i).mp (resolves.inside i there))
    have ge := resolves.unbeaten there ((same y).mpr (resolves'.inside y inside)) own
    exact List.mem_map.mpr ⟨y,inside,Prod.ext own (Info.rank_eq_iff.mp (le_antisymm ge le))⟩
  refine List.Perm.eq_of_pairwise (fun x y _ _ below above => absurd below (lt_asymm above))
    (less resolves.sorted) (less resolves'.sorted) ?_
  exact (List.perm_ext_iff_of_nodup (nodup resolves.sorted) (nodup resolves'.sorted)).mpr fun x =>
    ⟨half resolves resolves' same,half resolves' resolves fun i => (same i).symm⟩

/-- A lookup in what entries come down to. -/
theorem Resolves.find?_ruled {l source own : List Info} (resolves : Resolves l source) (id : ID)
    (same : ∀ i, i ∈ own ↔ i ∈ source ∧ i.contentID = id) :
    (l.find? fun i => i.contentID = id).map Info.ruled = (best own none).map Info.ruled := by
  cases found : best own none with
  | none =>
    have empty := (best_eq_none.mp found).1
    have absent : (l.find? fun i => i.contentID = id) = none := by
      refine List.find?_eq_none.mpr fun i member contentID => ?_
      simpa [empty] using (same i).mpr ⟨resolves.inside i member,by simpa using contentID⟩
    simp [absent]
  | some w =>
    have inside : w ∈ own := by simpa using best_mem found
    obtain ⟨member,contentID⟩ := (same w).mp inside
    obtain ⟨y,there,equal,le⟩ := resolves.covered w member
    have ge := rank_le_best found (Or.inl ((same y).mpr ⟨resolves.inside y there,equal.trans contentID⟩))
    rw [(find?_contentID resolves.sorted).mpr ⟨there,equal.trans contentID⟩]
    exact congrArg some (Info.rank_eq_iff.mp (le_antisymm ge le))

end Resolution

section Merging

/-- Where an entry stands in the order of the heap. -/
def NextInfo.position (n : NextInfo) : Bytes ×ₗ (Int ×ₗ Bool ×ₗ BlobID) :=
  toLex (contentIDToBytes n.it.contentID,n.it.rank)

theorem nextInfoLess_decides : Decides nextInfoLess fun a b => a.position ≤ b.position where
  refl a := le_refl _
  trans := le_trans
  yes a b less := by
    unfold nextInfoLess at less
    unfold NextInfo.position
    rw [Prod.Lex.toLex_le_toLex]
    split at less
    next differs => exact Or.inl (ID.less_iff.mp less)
    next same =>
      rw [not_not] at same
      exact Or.inr ⟨congrArg contentIDToBytes same,contentInfoGreaterThanStruct_eq_false.mp (by simpa using less)⟩
  no a b less := by
    unfold nextInfoLess at less
    unfold NextInfo.position
    rw [Prod.Lex.toLex_le_toLex]
    split at less
    next differs =>
      rw [← Bool.not_eq_true,ID.less_iff,not_lt] at less
      exact Or.inl (lt_of_le_of_ne less fun same => differs (contentIDToBytes_injective same.symm))
    next same =>
      rw [not_not] at same
      exact Or.inr ⟨congrArg contentIDToBytes same.symm,le_of_lt (contentInfoGreaterThanStruct_iff.mp (by simpa using less))⟩

theorem key_le_of_position {a b : NextInfo} (le : a.position ≤ b.position) :
    contentIDToBytes a.it.contentID ≤ contentIDToBytes b.it.contentID := by
  rcases Prod.Lex.toLex_le_toLex.mp le with less | ⟨same,_⟩
  · exact le_of_lt less
  · exact le_of_eq same

/-- The heap is in order and its channels deliver in order. -/
structure Channels (h : List NextInfo) : Prop where
  ordered : Ordered (fun a b => a.position ≤ b.position) h h.length
  sorted : ∀ n ∈ h, (n.it :: n.ch).Pairwise keyLess

theorem Channels.receive {h : List NextInfo} (channels : Channels h) {l : List Info} (sorted : l.Pairwise keyLess) :
    Channels (receive h l) := by
  cases l with
  | nil => exact channels
  | cons it ch =>
    refine ⟨Push_ordered nextInfoLess_decides channels.ordered _,fun n member => ?_⟩
    rcases List.mem_cons.mp ((Push_perm nextInfoLess h ⟨it,ch⟩).subset member) with rfl | old
    · exact sorted
    · exact channels.sorted n old

/-- What is taken off the heap has the least identifier, and the heap goes on. -/
theorem Channels.popped {h : List NextInfo} (channels : Channels h) {next : NextInfo} {rest : List NextInfo}
    (popped : Pop nextInfoLess h = some (next,rest)) : Channels (Vbe.Index.receive rest next.ch) ∧
    ∀ x ∈ waiting (Vbe.Index.receive rest next.ch), contentIDToBytes next.it.contentID ≤ contentIDToBytes x.contentID := by
  have some : h ≠ [] := by
    rintro rfl
    simp [Pop,down] at popped
  obtain ⟨first,others,found,perm,ordered,least⟩ := Pop_spec nextInfoLess_decides channels.ordered some
  rw [popped] at found
  cases Option.some.inj found
  have sorted := channels.sorted next (perm.subset (by simp))
  have kept : Channels rest := ⟨ordered,fun n member => channels.sorted n (perm.subset (by simp [member]))⟩
  refine ⟨kept.receive (List.pairwise_cons.mp sorted).2,fun x member => ?_⟩
  rcases List.mem_append.mp ((receive_perm rest next.ch).subset member) with own | other
  · exact le_of_lt ((List.pairwise_cons.mp sorted).1 x own)
  · obtain ⟨n,there,inside⟩ := List.mem_flatMap.mp other
    have front := key_le_of_position (least n there)
    rcases List.mem_cons.mp inside with rfl | later
    · exact front
    · exact le_trans front (le_of_lt ((List.pairwise_cons.mp (kept.sorted n there)).1 x later))

theorem Channels.pop_none {h : List NextInfo} (channels : Channels h) (none : Pop nextInfoLess h = none) : h = [] := by
  by_contra some
  obtain ⟨_,_,found,_⟩ := Pop_spec nextInfoLess_decides channels.ordered some
  rw [none] at found
  contradiction

/-- The loop resolves what is pending and waiting. The pending item is never behind what
is waiting, which is what makes it final once another identifier comes up. -/
theorem iterateLoop_resolves {h : List NextInfo} {pendingItem : Option Info} (channels : Channels h)
    (ahead : ∀ p ∈ pendingItem, ∀ x ∈ waiting h, contentIDToBytes p.contentID ≤ contentIDToBytes x.contentID) :
    Resolves (Merged.iterateLoop h pendingItem) (pendingItem.toList ++ waiting h) := by
  fun_induction Merged.iterateLoop h pendingItem with
  | case1 h pendingItem none =>
    cases channels.pop_none none
    cases pendingItem <;> exact ⟨by simp,by simp [waiting],by simp [waiting]⟩
  | case2 h next rest popped ih =>
    obtain ⟨kept,front⟩ := channels.popped popped
    exact (ih kept (by simpa using front)).perm (popped_perm popped)
  | case3 h next rest popped pending differs ih =>
    obtain ⟨kept,front⟩ := channels.popped popped
    have resolves := (ih kept (by simpa using front)).perm (popped_perm popped)
    have first : contentIDToBytes pending.contentID < contentIDToBytes next.it.contentID := by
      refine lt_of_le_of_ne (ahead pending rfl next.it ((popped_perm popped).subset (by simp))) fun same => ?_
      exact differs (contentIDToBytes_injective same)
    refine ⟨List.pairwise_cons.mpr ⟨fun x member => ?_,resolves.sorted⟩,fun i member => ?_,fun x member => ?_⟩
    · refine lt_of_lt_of_le first ?_
      rcases List.mem_cons.mp ((popped_perm popped).mem_iff.mpr (resolves.inside x member)) with rfl | later
      · exact le_refl _
      · exact front x later
    · rcases List.mem_cons.mp member with rfl | later
      · simp
      · exact List.mem_append_right _ (resolves.inside i later)
    · rcases List.mem_append.mp member with own | other
      · have itself : x = pending := by simpa using own
        exact ⟨pending,by simp,congrArg _ itself.symm,itself ▸ le_refl _⟩
      · obtain ⟨y,there,same,le⟩ := resolves.covered x other
        exact ⟨y,by simp [there],same,le⟩
  | case4 h next rest popped pending same wins ih =>
    obtain ⟨kept,front⟩ := channels.popped popped
    have resolves := (ih kept (by simpa using front)).perm (popped_perm popped)
    rw [not_not] at same
    refine ⟨resolves.sorted,fun i member => List.mem_append_right _ (resolves.inside i member),fun x member => ?_⟩
    rcases List.mem_append.mp member with own | other
    · have itself : x = pending := by simpa using own
      obtain ⟨y,there,equal,le⟩ := resolves.covered next.it ((popped_perm popped).subset (by simp))
      refine ⟨y,there,equal.trans (same.symm.trans (congrArg _ itself.symm)),?_⟩
      exact itself ▸ le_trans (le_of_lt (contentInfoGreaterThanStruct_iff.mp wins)) le
    · exact resolves.covered x other
  | case5 h next rest popped pending same loses ih =>
    obtain ⟨kept,front⟩ := channels.popped popped
    have perm := popped_perm popped
    rw [not_not] at same
    have resolves := ih kept (by
      intro p own x member
      cases own
      exact same ▸ front x member)
    refine ⟨resolves.sorted,fun i member => ?_,fun x member => ?_⟩
    · rcases List.mem_append.mp (resolves.inside i member) with own | other
      · exact List.mem_append_left _ own
      · exact List.mem_append_right _ (perm.subset (List.mem_cons_of_mem _ other))
    · rcases List.mem_append.mp member with own | other
      · exact resolves.covered x (List.mem_append_left _ own)
      · rcases List.mem_cons.mp (perm.mem_iff.mpr other) with rfl | later
        · obtain ⟨y,there,equal,le⟩ := resolves.covered pending (by simp)
          refine ⟨y,there,equal.trans same,le_trans ?_ le⟩
          exact contentInfoGreaterThanStruct_eq_false.mp (by simpa using loses)
        · exact resolves.covered x (List.mem_append_right _ later)

theorem foldl_receive {α : Type} (channel : α → List Info) (m : List α) (sorted : ∀ a ∈ m, (channel a).Pairwise keyLess)
    {h : List NextInfo} (channels : Channels h) :
    Channels (m.foldl (fun h a => receive h (channel a)) h) ∧
      (waiting (m.foldl (fun h a => receive h (channel a)) h)).Perm (waiting h ++ m.flatMap channel) := by
  induction m generalizing h with
  | nil => exact ⟨channels,by simp⟩
  | cons a m ih =>
    obtain ⟨kept,perm⟩ := ih (fun b member => sorted b (by simp [member])) (channels.receive (sorted a (by simp)))
    refine ⟨kept,perm.trans ?_⟩
    rw [List.flatMap_cons,← List.append_assoc]
    exact ((receive_perm h (channel a)).trans List.perm_append_comm).append_right _

/-- As long as each index delivers in order, an iteration resolves what they deliver. -/
theorem Merged.Iterate_resolves {ε : Type} {m : List (OpenedIndex ε)} {r : IDRange}
    (sorted : ∀ ndx ∈ m, (iterateChan r ndx).Pairwise keyLess) :
    Resolves (Iterate m r).1 (m.flatMap (iterateChan r)) := by
  have empty : Channels [] := ⟨by simp [Ordered],by simp⟩
  obtain ⟨channels,perm⟩ := foldl_receive (iterateChan r) m sorted empty
  exact (iterateLoop_resolves channels (by simp)).perm perm

end Merging

section Valid

/-- An index that answers from a list of entries. A lookup may fail for an identifier
whose key is of another length. -/
structure ValidIndex (ε : Type) extends OpenedIndex ε where
  entries : List Info
  sorted : entries.Pairwise keyLess
  iterates : ∀ r, Iterate r = (entries.filter fun i => r.Contains i.contentID,none)
  finds : ∀ id, (∀ i ∈ entries, (contentIDToBytes i.contentID).length = (contentIDToBytes id).length) →
    GetInfo id = .ok (entries.find? fun i => i.contentID = id)
  refuses : ∀ id, ¬(∀ i ∈ entries, (contentIDToBytes i.contentID).length = (contentIDToBytes id).length) →
    ∃ e, GetInfo id = .error e

variable {ε : Type}

/-- The identifier has the key length of every entry. -/
def Accepted (m : List (ValidIndex ε)) (id : ID) : Prop :=
  ∀ ndx ∈ m, ∀ i ∈ ndx.entries, (contentIDToBytes i.contentID).length = (contentIDToBytes id).length

/-- The entries of one identifier, index by index. -/
def entriesOf (m : List (ValidIndex ε)) (id : ID) : List Info :=
  m.filterMap fun ndx => ndx.entries.find? fun i => i.contentID = id

theorem mem_entriesOf {m : List (ValidIndex ε)} {id : ID} {i : Info} :
    i ∈ entriesOf m id ↔ (∃ ndx ∈ m, i ∈ ndx.entries) ∧ i.contentID = id := by
  have own (ndx : ValidIndex ε) : (ndx.entries.find? fun i => i.contentID = id) = some i ↔
      i ∈ ndx.entries ∧ i.contentID = id := find?_contentID ndx.sorted
  simp only [entriesOf,List.mem_filterMap,own]
  tauto

namespace Merged

theorem getInfoLoop_eq (m : List (ValidIndex ε)) (id : ID) (accepted : Accepted m id) (result : Option Info) :
    getInfoLoop id (m.map ValidIndex.toOpenedIndex) result = .ok (best (entriesOf m id) result) := by
  induction m generalizing result with
  | nil => rfl
  | cons ndx m ih =>
    have rest : Accepted m id := fun other member => accepted other (by simp [member])
    rw [List.map_cons,getInfoLoop,ndx.finds id (accepted ndx (by simp))]
    cases found : ndx.entries.find? fun i => i.contentID = id with
    | none => simpa [entriesOf,found] using ih rest result
    | some tmp => simpa [entriesOf,found,best] using ih rest (some (Builder.winner result tmp))

theorem getInfoLoop_refuses (m : List (ValidIndex ε)) (id : ID) (refused : ¬Accepted m id) (result : Option Info) :
    ∃ e, getInfoLoop id (m.map ValidIndex.toOpenedIndex) result = .error e := by
  induction m generalizing result with
  | nil => exact absurd (by simp [Accepted]) refused
  | cons ndx m ih =>
    rw [List.map_cons,getInfoLoop]
    by_cases own : ∀ i ∈ ndx.entries, (contentIDToBytes i.contentID).length = (contentIDToBytes id).length
    · have rest : ¬Accepted m id := by
        intro accepted
        refine refused fun other member => ?_
        rcases List.mem_cons.mp member with rfl | later
        · exact own
        · exact accepted other later
      rw [ndx.finds id own]
      cases ndx.entries.find? fun i => i.contentID = id with
      | none => exact ih rest result
      | some tmp => exact ih rest _
    · obtain ⟨e,failed⟩ := ndx.refuses id own
      rw [failed]
      exact ⟨e,rfl⟩

theorem iterateChan_eq (r : IDRange) (ndx : ValidIndex ε) :
    iterateChan r ndx.toOpenedIndex = ndx.entries.filter fun i => r.Contains i.contentID := by
  rw [iterateChan,ndx.iterates]

theorem Iterate_valid (m : List (ValidIndex ε)) (r : IDRange) :
    Resolves (Iterate (m.map ValidIndex.toOpenedIndex) r).1
      (m.flatMap fun ndx => ndx.entries.filter fun i => r.Contains i.contentID) := by
  have resolves := Iterate_resolves (m := m.map ValidIndex.toOpenedIndex) (r := r) (by
    intro ndx member
    obtain ⟨valid,_,rfl⟩ := List.mem_map.mp member
    rw [iterateChan_eq]
    exact valid.sorted.filter _)
  rw [List.flatMap_map] at resolves
  simpa only [iterateChan_eq] using resolves

end Merged

end Valid

end Vbe.Index
