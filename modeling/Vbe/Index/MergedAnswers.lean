import Vbe.Index.Version1RoundTrip

/-! What several opened index files answer together. Iteration and lookup agree on every
identifier that the indexes accept; a lookup of one whose key has another length than the
keys of some index is refused by that index, and so by all of them. -/
namespace Vbe.Index

section Agreement
variable {ε : Type}

namespace Merged

/-- An iteration over any valid indexes calls back once for each identifier of the range,
in order, with an entry that no other beats. Where the key lengths agree a lookup finds an
entry of the same time, deletedness and pack; where they do not it fails. Neither depends
on the order of the indexes. -/
theorem Iterate_agrees_GetInfo (m : List (ValidIndex ε)) (r : IDRange) :
    ∃ delivered, Iterate (m.map ValidIndex.toOpenedIndex) r = (delivered,none) ∧
      (delivered.Pairwise fun i j => i.contentID.less j.contentID) ∧
      (∀ id, (∃ i ∈ delivered, i.contentID = id) ↔
        r.Contains id ∧ ∃ ndx ∈ m, ∃ i ∈ ndx.entries, i.contentID = id) ∧
      (∀ i ∈ delivered, (∃ ndx ∈ m, i ∈ ndx.entries) ∧ ∀ ndx ∈ m, ∀ j ∈ ndx.entries,
        j.contentID = i.contentID → contentInfoGreaterThanStruct j i = false) ∧
      (∀ id, Accepted m id → ∃ found, GetInfo (m.map ValidIndex.toOpenedIndex) id = .ok found ∧
        (∀ i ∈ found, i.contentID = id) ∧
        (r.Contains id → found.map Info.ruled = (delivered.find? fun i => i.contentID = id).map Info.ruled)) ∧
      (∀ id, ¬Accepted m id → ∃ e, GetInfo (m.map ValidIndex.toOpenedIndex) id = .error e) ∧
      ∀ m' : List (ValidIndex ε), m'.Perm m →
        (∃ delivered', Iterate (m'.map ValidIndex.toOpenedIndex) r = (delivered',none) ∧
          delivered'.map (fun i => (i.contentID,i.ruled)) = delivered.map fun i => (i.contentID,i.ruled)) ∧
        ∀ id, (GetInfo (m'.map ValidIndex.toOpenedIndex) id).toOption.map (Option.map Info.ruled) =
          (GetInfo (m.map ValidIndex.toOpenedIndex) id).toOption.map (Option.map Info.ruled) := by
  have resolves := Iterate_valid m r
  have source (i : Info) : (i ∈ m.flatMap fun ndx => ndx.entries.filter fun i => r.Contains i.contentID) ↔
      (∃ ndx ∈ m, i ∈ ndx.entries) ∧ r.Contains i.contentID := by
    simp only [List.mem_flatMap,List.mem_filter]
    tauto
  refine ⟨_,rfl,resolves.sorted.imp ID.less_iff.mpr,fun id => ⟨?_,?_⟩,fun i member => ?_,fun id accepted => ?_,
    fun id refused => getInfoLoop_refuses m id refused none,fun m' perm => ⟨⟨_,rfl,?_⟩,fun id => ?_⟩⟩
  · rintro ⟨i,member,rfl⟩
    obtain ⟨⟨ndx,there,inside⟩,contains⟩ := (source i).mp (resolves.inside i member)
    exact ⟨contains,ndx,there,i,inside,rfl⟩
  · rintro ⟨contains,ndx,there,i,inside,rfl⟩
    obtain ⟨y,member,same,_⟩ := resolves.covered i ((source i).mpr ⟨⟨ndx,there,inside⟩,contains⟩)
    exact ⟨y,member,same⟩
  · obtain ⟨occurs,contains⟩ := (source i).mp (resolves.inside i member)
    refine ⟨occurs,fun ndx there j inside same => contentInfoGreaterThanStruct_eq_false.mpr ?_⟩
    exact resolves.unbeaten member ((source j).mpr ⟨⟨ndx,there,inside⟩,same ▸ contains⟩) same
  · refine ⟨_,getInfoLoop_eq m id accepted none,fun i found => ?_,fun contains => ?_⟩
    · exact (mem_entriesOf.mp (by simpa using best_mem found)).2
    · refine (resolves.find?_ruled id fun i => ?_).symm
      rw [source,mem_entriesOf]
      constructor
      · rintro ⟨occurs,rfl⟩
        exact ⟨⟨occurs,contains⟩,rfl⟩
      · rintro ⟨⟨occurs,_⟩,own⟩
        exact ⟨occurs,own⟩
  · exact (Iterate_valid m' r).ruled_congr resolves fun i => (perm.flatMap_right _).mem_iff
  · have members (ndx : ValidIndex ε) : ndx ∈ m' ↔ ndx ∈ m := perm.mem_iff
    by_cases accepted : Accepted m id
    · have accepted' : Accepted m' id := fun ndx there => accepted ndx ((members ndx).mp there)
      rw [GetInfo,GetInfo,getInfoLoop_eq m id accepted,getInfoLoop_eq m' id accepted']
      refine congrArg some (best_ruled_congr fun i => ?_)
      simp only [mem_entriesOf,members]
    · have refused' : ¬Accepted m' id := fun accepted' => accepted fun ndx there => accepted' ndx ((members ndx).mpr there)
      obtain ⟨e,failed⟩ := getInfoLoop_refuses m id accepted none
      obtain ⟨e',failed'⟩ := getInfoLoop_refuses m' id refused' none
      rw [GetInfo,GetInfo,failed,failed']
      rfl

end Merged

end Agreement

section Replacement
variable {ε : Type} {m m' : List (ValidIndex ε)}

/-- Entries for one identifier that the rule cannot tell apart are the same. -/
def Untied (m : List (ValidIndex ε)) : Prop := ∀ ndx ∈ m, ∀ i ∈ ndx.entries, ∀ ndx' ∈ m, ∀ j ∈ ndx'.entries,
  i.contentID = j.contentID → i.ruled = j.ruled → i = j

/-- The outputs hold entries of the inputs only, and for each of them one that it does not beat. -/
structure Replaces (inputs outputs : List (ValidIndex ε)) : Prop where
  inside : ∀ ndx ∈ outputs, ∀ i ∈ ndx.entries, ∃ ndx' ∈ inputs, i ∈ ndx'.entries
  covered : ∀ ndx ∈ inputs, ∀ i ∈ ndx.entries, ∃ ndx' ∈ outputs, ∃ j ∈ ndx'.entries,
    j.contentID = i.contentID ∧ i.rank ≤ j.rank

/-- Other indexes beside both stay out of it. -/
theorem Replaces.beside {inputs outputs rest : List (ValidIndex ε)} (replaces : Replaces inputs outputs)
    (before : m.Perm (rest ++ inputs)) (after : m'.Perm (rest ++ outputs)) : Replaces m m' := by
  refine ⟨fun ndx member i inside => ?_,fun ndx member i inside => ?_⟩
  · rcases List.mem_append.mp (after.mem_iff.mp member) with other | output
    · exact ⟨ndx,before.mem_iff.mpr (List.mem_append_left _ other),inside⟩
    · obtain ⟨ndx',there,own⟩ := replaces.inside ndx output i inside
      exact ⟨ndx',before.mem_iff.mpr (List.mem_append_right _ there),own⟩
  · rcases List.mem_append.mp (before.mem_iff.mp member) with other | input
    · exact ⟨ndx,after.mem_iff.mpr (List.mem_append_left _ other),i,inside,rfl,le_refl _⟩
    · obtain ⟨ndx',there,j,own⟩ := replaces.covered ndx input i inside
      exact ⟨ndx',after.mem_iff.mpr (List.mem_append_right _ there),j,own⟩

theorem Replaces.accepted (replaces : Replaces m m') (id : ID) : Accepted m' id ↔ Accepted m id := by
  constructor
  · intro accepted ndx member i inside
    obtain ⟨ndx',there,j,own,same,_⟩ := replaces.covered ndx member i inside
    rw [← same]
    exact accepted ndx' there j own
  · intro accepted ndx member i inside
    obtain ⟨ndx',there,own⟩ := replaces.inside ndx member i inside
    exact accepted ndx' there i own

/-- A lookup finds the same entry, or fails as before. -/
theorem Replaces.GetInfo (replaces : Replaces m m') (untied : Untied m) (id : ID) :
    (Merged.GetInfo (m'.map ValidIndex.toOpenedIndex) id).toOption =
      (Merged.GetInfo (m.map ValidIndex.toOpenedIndex) id).toOption := by
  by_cases accepted : Accepted m id
  · rw [Merged.GetInfo,Merged.GetInfo,Merged.getInfoLoop_eq m id accepted,
      Merged.getInfoLoop_eq m' id ((replaces.accepted id).mpr accepted)]
    refine congrArg some (best_congr (fun i member => ?_) (fun i member => ?_) fun i member j member' same => ?_)
    · obtain ⟨⟨ndx,there,inside⟩,own⟩ := mem_entriesOf.mp member
      exact mem_entriesOf.mpr ⟨replaces.inside ndx there i inside,own⟩
    · obtain ⟨⟨ndx,there,inside⟩,own⟩ := mem_entriesOf.mp member
      obtain ⟨ndx',there',j,inside',equal,le⟩ := replaces.covered ndx there i inside
      exact ⟨j,mem_entriesOf.mpr ⟨⟨ndx',there',inside'⟩,equal.trans own⟩,le⟩
    · obtain ⟨⟨ndx,there,inside⟩,own⟩ := mem_entriesOf.mp member
      obtain ⟨⟨ndx',there',inside'⟩,own'⟩ := mem_entriesOf.mp member'
      exact untied ndx there i inside ndx' there' j inside' (own.trans own'.symm) (Info.rank_eq_iff.mp same)
  · obtain ⟨e,failed⟩ := Merged.getInfoLoop_refuses m id accepted none
    obtain ⟨e',failed'⟩ := Merged.getInfoLoop_refuses m' id (fun other => accepted ((replaces.accepted id).mp other)) none
    rw [Merged.GetInfo,Merged.GetInfo,failed,failed']
    rfl

end Replacement

section Mixed

/-- One entry, written with version 1 and read back. -/
theorem single_opens {i : Info} {keySize : Nat} (written : WrittenV1 [i] keySize)
    (encodable : (Builder.empty.set i).EncodableV1) : ∃ out ndx, ∃ valid : ValidIndex ReadError,
      (Builder.empty.set i).buildV1 = .ok out ∧ Open 0 out = .ok ndx ∧
      (∀ names, ndx.Remembers names → ndx.opened names = valid.toOpenedIndex) ∧
      valid.entries = [i.stored 0] := by
  have alone : (Builder.empty.set i).sortedContents = [i] :=
    sortedContents_single (by simp [Builder.infos,Builder.set,Builder.empty])
      (encodable.valid i (by simp [Builder.infos,Builder.set,Builder.empty]))
  obtain ⟨out,done,opens⟩ := buildV1_opens encodable
  have file : out = fileBytesV1 [i] := by
    have built := buildV1_written (alone ▸ written)
    rw [alone] at built
    exact Except.ok.inj (done.symm.trans built)
  have small : out.length < 2 ^ 32 := by
    have names := (written.names i (by simp)).2
    have short := written.short
    have prepared : (extraDataV1 [i]).length ≤ 255 := by
      simp only [extraDataV1,IndexBuilderV1.prepareExtraData,newIndexBuilderV1,List.foldl_cons,List.foldl_nil,appendPackName]
      split <;> simp [names]
    rw [file,written.length_fileBytesV1]
    simp only [maxHashSize,v1HeaderSize,List.length_singleton] at short ⊢
    omega
  obtain ⟨ndx,valid,opened,answers,entries⟩ := opens small 0 []
  rw [List.append_nil] at opened
  refine ⟨out,.v1 ndx,valid,done,opened,answers,?_⟩
  rw [entries,alone]
  rfl

/-- Of two indexes with keys of different lengths an iteration delivers an identifier that
a lookup fails for. -/
theorem Merged.GetInfo_refuses_delivered : ∃ out out' ndx ndx' delivered e,
    (Builder.empty.set deletedInfo).buildV1 = .ok out ∧ (Builder.empty.set (numberedInfo 0)).buildV1 = .ok out' ∧
    Open 0 out = .ok ndx ∧ Open 0 out' = .ok ndx' ∧
    Merged.Iterate [ndx.opened [],ndx'.opened []] AllIDs = (delivered,none) ∧
    (∃ i ∈ delivered, i.contentID = deletedInfo.contentID) ∧
    Merged.GetInfo [ndx.opened [],ndx'.opened []] deletedInfo.contentID = .error e := by
  have short : WrittenV1 [deletedInfo] 2 :=
    ⟨by decide,by decide,by decide,by decide,by decide,by decide,by decide,by decide⟩
  have long : WrittenV1 [numberedInfo 0] 5 :=
    ⟨by decide,by decide,by decide,by decide,by decide,by decide,by decide,by decide⟩
  obtain ⟨out,ndx,valid,done,opened,answers,entries⟩ := single_opens short deletedInfo_encodable
  obtain ⟨out',ndx',valid',done',opened',answers',entries'⟩ := single_opens long
    ⟨by decide,by decide,by decide,by decide,by decide,by decide⟩
  have resolves := Iterate_valid [valid,valid'] AllIDs
  obtain ⟨y,member,same,_⟩ := resolves.covered (deletedInfo.stored 0) (by
    rw [List.mem_flatMap]
    exact ⟨valid,by simp,by rw [entries]; decide⟩)
  obtain ⟨e,refused⟩ := getInfoLoop_refuses [valid,valid'] deletedInfo.contentID (fun accepted => by
    have lengths := accepted valid' (by simp) ((numberedInfo 0).stored 0) (by simp [entries'])
    revert lengths
    decide) none
  refine ⟨out,out',ndx,ndx',_,e,done,done',opened,opened',?_,⟨y,member,same⟩,?_⟩
  · rw [answers [] ndx.remembers_nil,answers' [] ndx'.remembers_nil]
    rfl
  · rw [answers [] ndx.remembers_nil,answers' [] ndx'.remembers_nil]
    exact refused

end Mixed

end Vbe.Index
