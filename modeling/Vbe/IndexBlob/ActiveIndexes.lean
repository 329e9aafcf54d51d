import Vbe.IndexBlob.ManagerV0

/-! The merged index that is made of index blobs and compaction logs, and how what is written and deleted changes it. -/
namespace Vbe.IndexBlob.ManagerV0
open Vbe.Index Vbe.Library

section View

def compactionLogs (st : Storage) : List (BlobID × compactionLogEntry) := st.filterMap fun b =>
  match b.payload with
  | .compactionLog e => some (b.BlobID,e)
  | _ => none

def entriesOf (st : Storage) (blobID : BlobID) : List Info :=
  match st.GetEncryptedBlob blobID with
  | some (.index entries) => entries
  | _ => []

/-- What `ListActiveIndexBlobs` makes of what is stored. -/
def activeIndexBlobs (st : Storage) : List Metadata :=
  removeCompactedIndexes (st.listing V0IndexBlobPrefix) ((compactionLogs st).map Prod.snd)

def activeEntries (st : Storage) : List Info := (activeIndexBlobs st).flatMap fun bm => entriesOf st bm.BlobID

/-- The merged index has the content and does not say that it was deleted. -/
def Live (st : Storage) (id : ID) : Prop := ∃ i, (Builder.empty.addAll (activeEntries st)).get? id = some i ∧ i.deleted = false

end View

section Entries
variable {E E' E'' : Info → Prop} {id : ID}

/-- The best of the entries of a content says that it is there. -/
def LiveIn (E : Info → Prop) (id : ID) : Prop :=
  ∃ i, E i ∧ i.contentID = id ∧ i.deleted = false ∧ ∀ j, E j → j.contentID = id → j.rank ≤ i.rank

def Dominates (E' E : Info → Prop) : Prop := ∀ i, E i → ∃ j, E' j ∧ j.contentID = i.contentID ∧ i.rank ≤ j.rank

theorem Dominates.of_subset (inside : ∀ i, E i → E' i) : Dominates E' E := fun i member => ⟨i,inside i member,rfl,le_rfl⟩

theorem Dominates.trans (upper : Dominates E'' E') (lower : Dominates E' E) : Dominates E'' E := by
  intro i member
  obtain ⟨j,there,same,below⟩ := lower i member
  obtain ⟨k,there',same',below'⟩ := upper j there
  exact ⟨k,there',same'.trans same,below.trans below'⟩

theorem Dominates.live (upper : Dominates E' E) (lower : Dominates E E') (live : LiveIn E id) : LiveIn E' id := by
  obtain ⟨i,member,rfl,there,best⟩ := live
  obtain ⟨j,member',same,above⟩ := upper i member
  have highest (k : Info) (inside : E' k) (own : k.contentID = i.contentID) : k.rank ≤ i.rank := by
    obtain ⟨l,inside',same',below⟩ := lower k inside
    exact below.trans (best l inside' (same'.trans own))
  have equal : j.rank = i.rank := le_antisymm (highest j member' same) above
  refine ⟨j,member',same,?_,fun k inside own => equal ▸ highest k inside own⟩
  have ruled := Info.rank_eq_iff.mp equal
  exact (congrArg (fun r => r.2.1) ruled).trans there

theorem Dominates.live_iff (upper : Dominates E' E) (lower : Dominates E E') : LiveIn E id ↔ LiveIn E' id :=
  ⟨upper.live lower,lower.live upper⟩

theorem live_addAll {l : List Info} : LiveIn (· ∈ l) id ↔ ∃ i, (Builder.empty.addAll l).get? id = some i ∧ i.deleted = false := by
  rw [Builder.get?_addAll,Builder.get?_empty]
  constructor
  · rintro ⟨i,member,rfl,there,highest⟩
    have own : i ∈ l.filter fun j => j.contentID = i.contentID := List.mem_filter.mpr ⟨member,by simp⟩
    cases found : best (l.filter fun j => j.contentID = i.contentID) none with
    | none => simp [(best_eq_none.mp found).1] at own
    | some w =>
      refine ⟨w,rfl,?_⟩
      have inside : w ∈ l.filter fun j => j.contentID = i.contentID := (best_mem found).resolve_right nofun
      obtain ⟨inside,same⟩ := List.mem_filter.mp inside
      have equal := le_antisymm (highest w inside (of_decide_eq_true same)) (rank_le_best found (.inl own))
      exact (congrArg (fun r => r.2.1) (Info.rank_eq_iff.mp equal)).trans there
  · rintro ⟨w,found,there⟩
    have inside : w ∈ l.filter fun j => j.contentID = id := (best_mem found).resolve_right nofun
    obtain ⟨inside,same⟩ := List.mem_filter.mp inside
    refine ⟨w,inside,of_decide_eq_true same,there,fun j member own => ?_⟩
    exact rank_le_best found (.inl (List.mem_filter.mpr ⟨member,by simpa using own⟩))

/-- Contents are erased from a builder by what their entries say. -/
theorem get?_foldl_erase {p : Info → Prop} [DecidablePred p] (l : List Info) (bld : Builder) :
    (l.foldl (fun bld i => if p i then bld.erase i.contentID else bld) bld).get? id =
      if ∃ i ∈ l, p i ∧ i.contentID = id then none else bld.get? id := by
  induction l generalizing bld with
  | nil => simp
  | cons i l ih =>
    rw [List.foldl_cons,ih]
    by_cases erased : p i
    · rw [if_pos erased,Builder.get?_erase]
      by_cases own : i.contentID = id
      · simp [erased,own]
      · simp [own,Ne.symm own]
    · simp [erased]

theorem live_infos {bld : Builder} : LiveIn (· ∈ bld.infos) id ↔ ∃ i, bld.get? id = some i ∧ i.deleted = false := by
  constructor
  · rintro ⟨i,member,rfl,there,_⟩
    exact ⟨i,Builder.mem_infos.mp member,there⟩
  · rintro ⟨i,found,there⟩
    obtain rfl := Builder.get?_contentID found
    refine ⟨i,Builder.mem_infos.mpr found,rfl,there,fun j member same => ?_⟩
    have equal := (same ▸ Builder.mem_infos.mp member).symm.trans found
    rw [Option.some.inj equal]

/-- Only contents that are deleted are dropped. -/
theorem live_dropped {bld : Builder} {dropDeletedBefore : Option Int} :
    (∃ i, (dropContentsFromBuilder bld ⟨dropDeletedBefore,[]⟩).get? id = some i ∧ i.deleted = false) ↔
      ∃ i, bld.get? id = some i ∧ i.deleted = false := by
  cases dropDeletedBefore with
  | none => rfl
  | some dropDeletedBefore =>
    simp only [dropContentsFromBuilder,List.foldl_nil,get?_foldl_erase]
    split
    next dropped =>
      obtain ⟨i,member,⟨deleted,_⟩,rfl⟩ := dropped
      simp [Builder.mem_infos.mp member,deleted]
    next => rfl

theorem mem_dropped {bld : Builder} {dropDeletedBefore : Option Int} {i : Info}
    (member : i ∈ (dropContentsFromBuilder bld ⟨dropDeletedBefore,[]⟩).infos) : i ∈ bld.infos := by
  cases dropDeletedBefore with
  | none => exact member
  | some dropDeletedBefore =>
    rw [Builder.mem_infos] at member ⊢
    simp only [dropContentsFromBuilder,List.foldl_nil,get?_foldl_erase] at member
    split at member
    next => exact nomatch member
    next => exact member

theorem mem_of_addAll {l : List Info} {i : Info} (member : i ∈ (Builder.empty.addAll l).infos) : i ∈ l := by
  rw [Builder.mem_infos,Builder.get?_addAll,Builder.get?_empty] at member
  exact (List.mem_filter.mp ((best_mem member).resolve_right nofun)).1

end Entries

section Stored
variable {st : Storage} {b b' : Blob} {blobID : BlobID}

def Storage.Named (st : Storage) : Prop := (st.map Blob.BlobID).Nodup

theorem mem_DeleteBlob : b ∈ st.DeleteBlob blobID ↔ b ∈ st ∧ b.BlobID ≠ blobID := by simp [Storage.DeleteBlob]

theorem mem_PutBlob : b' ∈ st.PutBlob b ↔ b' = b ∨ b' ∈ st ∧ b'.BlobID ≠ b.BlobID := by
  rw [Storage.PutBlob,List.mem_cons,mem_DeleteBlob]

theorem named_delete (named : st.Named) : (st.DeleteBlob blobID).Named := List.Nodup.sublist (List.filter_sublist.map _) named

theorem named_put (named : st.Named) : (st.PutBlob b).Named := by
  rw [Storage.Named,Storage.PutBlob,List.map_cons,List.nodup_cons]
  refine ⟨fun member => ?_,named_delete named⟩
  obtain ⟨b',there,same⟩ := List.mem_map.mp member
  exact (mem_DeleteBlob.mp there).2 same

theorem GetEncryptedBlob_eq (named : st.Named) {p : Payload} :
    st.GetEncryptedBlob blobID = some p ↔ ∃ b ∈ st, b.BlobID = blobID ∧ b.payload = p := by
  rw [Storage.GetEncryptedBlob]
  constructor
  · intro found
    obtain ⟨b,there,rfl⟩ := Option.map_eq_some_iff.mp found
    exact ⟨b,List.mem_of_find?_eq_some there,by simpa using List.find?_some there,rfl⟩
  · rintro ⟨b,member,rfl,rfl⟩
    cases found : st.find? fun b' => b'.BlobID = b.BlobID with
    | none => simpa using List.find?_eq_none.mp found b member
    | some b' =>
      have same := List.inj_on_of_nodup_map named (List.mem_of_find?_eq_some found) member (by simpa using List.find?_some found)
      rw [same]
      rfl

theorem mem_compactionLogs {cl : BlobID × compactionLogEntry} :
    cl ∈ compactionLogs st ↔ ∃ b ∈ st, b.BlobID = cl.1 ∧ b.payload = .compactionLog cl.2 := by
  rw [compactionLogs,List.mem_filterMap]
  constructor
  · rintro ⟨b,member,same⟩
    split at same
    next e kind =>
      obtain rfl := Option.some.inj same
      exact ⟨b,member,rfl,kind⟩
    next => exact nomatch same
  · rintro ⟨b,member,own,kind⟩
    exact ⟨b,member,by rw [kind,own]⟩

theorem mem_entriesOf (named : st.Named) {i : Info} :
    i ∈ entriesOf st blobID ↔ ∃ b ∈ st, ∃ entries, b.BlobID = blobID ∧ b.payload = .index entries ∧ i ∈ entries := by
  rw [entriesOf]
  split
  next entries found =>
    obtain ⟨b,member,own,kind⟩ := (GetEncryptedBlob_eq named).mp found
    constructor
    · exact fun inside => ⟨b,member,entries,own,kind,inside⟩
    · rintro ⟨b',member',entries',own',kind',inside⟩
      have same := (GetEncryptedBlob_eq named).mpr ⟨b',member',own',kind'⟩
      cases found.symm.trans same
      exact inside
  next other =>
    refine iff_of_false List.not_mem_nil ?_
    rintro ⟨b,member,entries,own,kind,_⟩
    exact other entries ((GetEncryptedBlob_eq named).mpr ⟨b,member,own,kind⟩)

/-- The outputs of a log are there. -/
def Honoured (st : Storage) (le : compactionLogEntry) : Prop :=
  ∀ o ∈ le.OutputMetadata, ∃ b ∈ st, ∃ entries, b.payload = .index entries ∧ b.BlobID = o.BlobID

def Logged (st : Storage) (le : compactionLogEntry) : Prop := ∃ b ∈ st, b.payload = .compactionLog le

/-- A log that counts has the blob among its inputs. -/
def Hidden (st : Storage) (blobID : BlobID) : Prop :=
  ∃ le, Logged st le ∧ Honoured st le ∧ ∃ m ∈ le.InputMetadata, m.BlobID = blobID

theorem logged_iff {le : compactionLogEntry} : Logged st le ↔ ∃ cl ∈ compactionLogs st, cl.2 = le := by
  simp only [Logged,mem_compactionLogs]
  constructor
  · rintro ⟨b,member,kind⟩
    exact ⟨(b.BlobID,le),⟨b,member,rfl,kind⟩,rfl⟩
  · rintro ⟨cl,⟨b,member,_,kind⟩,rfl⟩
    exact ⟨b,member,kind⟩

/-- The blob is an index that no log hides. -/
def Active (st : Storage) (b : Blob) : Prop := b ∈ st ∧ (∃ entries, b.payload = .index entries) ∧ ¬ Hidden st b.BlobID

/-- The blob is an index with the entry. -/
def Has (b : Blob) (i : Info) : Prop := ∃ entries, b.payload = .index entries ∧ i ∈ entries

theorem mem_listing {p : BlobID} {bm : Metadata} : bm ∈ st.listing p ↔ ∃ b ∈ st, b.payload.blobPrefix = p ∧ b.metadata = bm := by
  simp [Storage.listing,and_assoc]

theorem isIndex_iff {p : Payload} : p.blobPrefix = V0IndexBlobPrefix ↔ ∃ entries, p = .index entries := by
  cases p <;> simp [Payload.blobPrefix,V0IndexBlobPrefix,V0CompactionLogBlobPrefix,V0CleanupBlobPrefix]

theorem hasBlob_iff {bimap : List Metadata} : hasBlob bimap blobID ↔ ∃ bm ∈ bimap, bm.BlobID = blobID := by simp [hasBlob]

theorem honoured_iff {le : compactionLogEntry} :
    (le.OutputMetadata.all fun o => hasBlob (st.listing V0IndexBlobPrefix) o.BlobID) ↔ Honoured st le := by
  simp only [List.all_eq_true,hasBlob_iff,mem_listing,isIndex_iff,Honoured]
  refine forall₂_congr fun o _ => ⟨?_,?_⟩
  · rintro ⟨_,⟨b,member,⟨entries,kind⟩,rfl⟩,same⟩
    exact ⟨b,member,entries,kind,same⟩
  · rintro ⟨b,member,entries,kind,same⟩
    exact ⟨_,⟨b,member,⟨entries,kind⟩,rfl⟩,same⟩

theorem mem_activeIndexBlobs {bm : Metadata} : bm ∈ activeIndexBlobs st ↔ ∃ b, Active st b ∧ b.metadata = bm := by
  have hidden (b : Blob) : (((compactionLogs st).map Prod.snd).filter fun cl =>
      cl.OutputMetadata.all fun o => hasBlob (st.listing V0IndexBlobPrefix) o.BlobID).any
        (fun cl => hasBlob cl.InputMetadata b.metadata.BlobID) ↔ Hidden st b.BlobID := by
    simp only [List.any_eq_true,List.mem_filter,honoured_iff,List.mem_map,hasBlob_iff,← logged_iff,and_assoc]
    rfl
  rw [activeIndexBlobs,removeCompactedIndexes,List.mem_filter,mem_listing]
  constructor
  · rintro ⟨⟨b,member,kind,rfl⟩,free⟩
    refine ⟨b,⟨member,isIndex_iff.mp kind,fun hides => ?_⟩,rfl⟩
    simp [(hidden b).mpr hides] at free
  · rintro ⟨b,⟨member,index,free⟩,rfl⟩
    refine ⟨⟨b,member,isIndex_iff.mpr index,rfl⟩,?_⟩
    rw [Bool.not_eq_true',← Bool.not_eq_true,hidden b]
    exact free

/-- The entries of the merged index are those of the active blobs. -/
theorem mem_activeEntries (named : st.Named) {i : Info} : i ∈ activeEntries st ↔ ∃ b, Active st b ∧ Has b i := by
  simp only [activeEntries,List.mem_flatMap,mem_activeIndexBlobs,mem_entriesOf named]
  constructor
  · rintro ⟨_,⟨b,active,rfl⟩,b',member,entries,same,kind,inside⟩
    obtain rfl : b' = b := List.inj_on_of_nodup_map named member active.1 same
    exact ⟨b',active,entries,kind,inside⟩
  · rintro ⟨b,active,entries,kind,inside⟩
    exact ⟨_,⟨b,active,rfl⟩,b,active.1,entries,rfl,kind,inside⟩

theorem live_iff (named : st.Named) {id : ID} : Live st id ↔ LiveIn (fun i => ∃ b, Active st b ∧ Has b i) id := by
  rw [Live,← live_addAll]
  simp only [mem_activeEntries named]

end Stored

section Changes
variable {st : Storage} {b b' : Blob} {blobID : BlobID}

theorem honoured_mono {st' : Storage} {le : compactionLogEntry} (inside : ∀ b ∈ st, b ∈ st') (honoured : Honoured st le) :
    Honoured st' le := by
  intro o output
  obtain ⟨b,member,index⟩ := honoured o output
  exact ⟨b,inside b member,index⟩

/-- What is deleted hides nothing that was not hidden. -/
theorem Active.delete (active : Active st b) (other : b.BlobID ≠ blobID) : Active (st.DeleteBlob blobID) b := by
  refine ⟨mem_DeleteBlob.mpr ⟨active.1,other⟩,active.2.1,?_⟩
  rintro ⟨le,⟨log,member,kind⟩,honoured,input⟩
  exact active.2.2 ⟨le,⟨log,(mem_DeleteBlob.mp member).1,kind⟩,honoured_mono (fun b inside => (mem_DeleteBlob.mp inside).1) honoured,input⟩

/-- A blob that a deletion reveals was hidden by the log that is deleted or has lost an output. -/
theorem Active.of_delete (active : Active (st.DeleteBlob blobID) b) : Active st b ∨ ∃ cl ∈ compactionLogs st,
    (cl.1 = blobID ∨ ∃ o ∈ cl.2.OutputMetadata, o.BlobID = blobID) ∧ ∃ m ∈ cl.2.InputMetadata, m.BlobID = b.BlobID := by
  obtain ⟨member,index,free⟩ := active
  have there := (mem_DeleteBlob.mp member).1
  by_cases hidden : Hidden st b.BlobID
  · obtain ⟨le,⟨log,logged,kind⟩,honoured,input⟩ := hidden
    refine .inr ⟨(log.BlobID,le),mem_compactionLogs.mpr ⟨log,logged,rfl,kind⟩,?_,input⟩
    by_contra kept
    simp only [not_or,not_exists,not_and] at kept
    refine free ⟨le,⟨log,mem_DeleteBlob.mpr ⟨logged,kept.1⟩,kind⟩,fun o output => ?_,input⟩
    obtain ⟨out,inside,entries,kind',same⟩ := honoured o output
    exact ⟨out,mem_DeleteBlob.mpr ⟨inside,fun equal => kept.2 o output (same.symm.trans equal)⟩,entries,kind',same⟩
  · exact .inl ⟨there,index,hidden⟩

/-- An equal name means equal contents. -/
def Agrees (st : Storage) (b : Blob) : Prop := ∀ b' ∈ st, b'.BlobID = b.BlobID → b'.payload = b.payload

theorem payload_put (agrees : Agrees st b) {p : Payload} :
    (∃ b' ∈ st.PutBlob b, b'.payload = p) ↔ p = b.payload ∨ ∃ b' ∈ st, b'.payload = p := by
  simp only [mem_PutBlob]
  constructor
  · rintro ⟨b',rfl | ⟨member,_⟩,rfl⟩
    · exact .inl rfl
    · exact .inr ⟨b',member,rfl⟩
  · rintro (rfl | ⟨b',member,rfl⟩)
    · exact ⟨b,.inl rfl,rfl⟩
    · by_cases same : b'.BlobID = b.BlobID
      · exact ⟨b,.inl rfl,(agrees b' member same).symm⟩
      · exact ⟨b',.inr ⟨member,same⟩,rfl⟩

/-- A blob of another kind leaves the index blobs alone. -/
theorem index_put (agrees : Agrees st b) (other : ∀ entries, b.payload ≠ .index entries) {entries : List Info}
    (index : b'.payload = .index entries) : b' ∈ st.PutBlob b ↔ b' ∈ st := by
  rw [mem_PutBlob]
  constructor
  · rintro (rfl | ⟨member,_⟩)
    · exact absurd index (other entries)
    · exact member
  · exact fun member => .inr ⟨member,fun same => other entries ((agrees b' member same).symm.trans index)⟩

theorem honoured_put (agrees : Agrees st b) (other : ∀ entries, b.payload ≠ .index entries) {le : compactionLogEntry} :
    Honoured (st.PutBlob b) le ↔ Honoured st le := by
  refine forall₂_congr fun o _ => exists_congr fun b' => ?_
  constructor
  · rintro ⟨member,entries,index,same⟩
    exact ⟨(index_put agrees other index).mp member,entries,index,same⟩
  · rintro ⟨member,entries,index,same⟩
    exact ⟨(index_put agrees other index).mpr member,entries,index,same⟩

/-- A log hides its inputs, if its outputs are there, and nothing else. -/
theorem active_put_log (agrees : Agrees st b) {le : compactionLogEntry} (log : b.payload = .compactionLog le) :
    Active (st.PutBlob b) b' ↔ Active st b' ∧ ¬ (Honoured st le ∧ ∃ m ∈ le.InputMetadata, m.BlobID = b'.BlobID) := by
  have other : ∀ entries, b.payload ≠ .index entries := fun entries same => nomatch log.symm.trans same
  have logged (le' : compactionLogEntry) : Logged (st.PutBlob b) le' ↔ le' = le ∨ Logged st le' := by
    rw [Logged,payload_put agrees,log,Payload.compactionLog.injEq]
    rfl
  have hidden : Hidden (st.PutBlob b) b'.BlobID ↔
      (Honoured st le ∧ ∃ m ∈ le.InputMetadata, m.BlobID = b'.BlobID) ∨ Hidden st b'.BlobID := by
    simp only [Hidden,logged,honoured_put agrees other,or_and_right,exists_or,exists_eq_left]
  constructor
  · rintro ⟨member,⟨entries,index⟩,free⟩
    rw [hidden,not_or] at free
    exact ⟨⟨(index_put agrees other index).mp member,⟨entries,index⟩,free.2⟩,free.1⟩
  · rintro ⟨⟨member,⟨entries,index⟩,free⟩,unlisted⟩
    exact ⟨(index_put agrees other index).mpr member,⟨entries,index⟩,hidden.not.mpr (not_or.mpr ⟨unlisted,free⟩)⟩

theorem active_put_cleanup (agrees : Agrees st b) {e : cleanupEntry} (cleanup : b.payload = .cleanup e) :
    Active (st.PutBlob b) b' ↔ Active st b' := by
  have other : ∀ entries, b.payload ≠ .index entries := fun entries same => nomatch cleanup.symm.trans same
  have hidden : Hidden (st.PutBlob b) b'.BlobID ↔ Hidden st b'.BlobID := by
    simp only [Hidden,Logged,payload_put agrees,cleanup,honoured_put agrees other,reduceCtorEq,false_or]
  constructor
  · rintro ⟨member,⟨entries,index⟩,free⟩
    exact ⟨(index_put agrees other index).mp member,⟨entries,index⟩,hidden.not.mp free⟩
  · rintro ⟨member,⟨entries,index⟩,free⟩
    exact ⟨(index_put agrees other index).mpr member,⟨entries,index⟩,hidden.not.mpr free⟩

/-- The name is that of no blob, and no log mentions it. -/
def Fresh (st : Storage) (blobID : BlobID) : Prop := (∀ b ∈ st, b.BlobID ≠ blobID) ∧ ∀ cl ∈ compactionLogs st,
  (∀ m ∈ cl.2.InputMetadata, m.BlobID ≠ blobID) ∧ ∀ o ∈ cl.2.OutputMetadata, o.BlobID ≠ blobID

/-- A new index blob adds its entries. -/
theorem active_put_index (fresh : Fresh st b.BlobID) {entries : List Info} (index : b.payload = .index entries) :
    Active (st.PutBlob b) b' ↔ b' = b ∨ Active st b' := by
  have agrees : Agrees st b := fun b' member same => absurd same (fresh.1 b' member)
  have logged (le : compactionLogEntry) : Logged (st.PutBlob b) le ↔ Logged st le := by
    simp only [Logged,payload_put agrees,index,reduceCtorEq,false_or]
  have honoured {le : compactionLogEntry} (there : Logged st le) : Honoured (st.PutBlob b) le ↔ Honoured st le := by
    obtain ⟨cl,member,rfl⟩ := logged_iff.mp there
    refine forall₂_congr fun o output => exists_congr fun out => ?_
    have differs := (fresh.2 cl member).2 o output
    constructor
    · rintro ⟨inside,entries',index',same⟩
      rcases mem_PutBlob.mp inside with rfl | ⟨inside,_⟩
      · exact absurd same.symm differs
      · exact ⟨inside,entries',index',same⟩
    · rintro ⟨inside,entries',index',same⟩
      exact ⟨mem_PutBlob.mpr (.inr ⟨inside,fresh.1 out inside⟩),entries',index',same⟩
  have hidden (blobID : BlobID) : Hidden (st.PutBlob b) blobID ↔ Hidden st blobID := by
    refine exists_congr fun le => ?_
    rw [logged]
    exact and_congr_right fun there => and_congr_left' (honoured there)
  have free : ¬ Hidden st b.BlobID := by
    rintro ⟨le,there,_,m,input,same⟩
    obtain ⟨cl,member,rfl⟩ := logged_iff.mp there
    exact (fresh.2 cl member).1 m input same
  simp only [Active,mem_PutBlob,hidden]
  constructor
  · rintro ⟨rfl | ⟨member,_⟩,index',free'⟩
    · exact .inl rfl
    · exact .inr ⟨member,index',free'⟩
  · rintro (rfl | ⟨member,index',free'⟩)
    · exact ⟨.inl rfl,⟨entries,index⟩,free⟩
    · exact ⟨.inr ⟨member,fresh.1 b' member⟩,index',free'⟩

end Changes

end Vbe.IndexBlob.ManagerV0
