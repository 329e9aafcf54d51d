import Vbe.IndexBlob.ActiveIndexes

/-! The parts of a compaction that only read. -/
namespace Vbe.IndexBlob.ManagerV0
open Vbe.Index Vbe.Library

section Reading
variable {α β : Type} {may : Storage → Op → Option Ending → Prop} {st : Storage}

/-- The program leaves the storage as it is, and a condition holds of its answer. -/
abbrev Reads (may : Storage → Op → Option Ending → Prop) (p : Call α) (post : α → Prop) (st : Storage) : Prop :=
  p.Pre Storage.perform may (Query.Upon (fun st' a => st' = st ∧ post a) (fun st' _ => st' = st) fun st' => st' = st) st

theorem reads_fail {post : α → Prop} : Reads may (.fail () : Call α) post st := rfl

theorem reads_answer {post : α → Prop} {a : α} (holds : post a) : Reads may (.answer a) post st := ⟨rfl,holds⟩

theorem reads_bind {p : Call α} {f : α → Call β} {mid : α → Prop} {post : β → Prop} (first : Reads may p mid st)
    (rest : ∀ a, mid a → Reads may (f a) post st) : Reads may (p >>= f) post st := by
  refine Query.Pre.andThen first ?_
  rintro st' a ⟨rfl,holds⟩
  exact rest a holds

theorem Reads.imp {p : Call α} {mid post : α → Prop} (reads : Reads may p mid st) (more : ∀ a, mid a → post a) :
    Reads may p post st :=
  reads.mono fun _ _ upon => upon.imp (fun a both => ⟨both.1,more a both.2⟩) (fun _ same => same) fun same => same

theorem perform_read {op : Op} (reads : (∃ p, op = .ListBlobs p) ∨ (∃ blobID, op = .GetEncryptedBlob blobID) ∨ ∃ keys, op = .visit keys)
    (e : Ending) : (st.perform op e).1 = st := by
  induction e with
  | lost e ih => exact ih
  | fails => rfl
  | returns => rcases reads with ⟨p,rfl⟩ | ⟨blobID,rfl⟩ | ⟨keys,rfl⟩ <;> rfl
  | lists blobs => rcases reads with ⟨p,rfl⟩ | ⟨blobID,rfl⟩ | ⟨keys,rfl⟩ <;> rfl
  | visits blobIDs => rcases reads with ⟨p,rfl⟩ | ⟨blobID,rfl⟩ | ⟨keys,rfl⟩ <;> rfl
  | writes hash length timestamp => rcases reads with ⟨p,rfl⟩ | ⟨blobID,rfl⟩ | ⟨keys,rfl⟩ <;> rfl

/-- A question that changes nothing. -/
theorem reads_ask {op : Op} {next : Reply → Call α} {post : α → Prop}
    (reads : (∃ p, op = .ListBlobs p) ∨ (∃ blobID, op = .GetEncryptedBlob blobID) ∨ ∃ keys, op = .visit keys)
    (rest : ∀ e, Reads may (next (st.perform op e).2) post st) : Reads may (.ask op next) post st :=
  ⟨fun _ => rfl,fun e _ => (perform_read reads e).symm ▸ rest e⟩

theorem reads_ListAllBlobs (p : BlobID) : Reads may (ListAllBlobs p) (fun blobs => blobs.Perm (st.listing p)) st := by
  refine reads_ask (.inl ⟨p,rfl⟩) fun e => ?_
  cases e with
  | lists blobs =>
    by_cases perm : blobs.Perm (st.listing p)
    · simp only [Storage.perform,if_pos perm]
      exact reads_answer perm
    · simp only [Storage.perform,if_neg perm]
      exact reads_fail
  | _ => exact reads_fail

/-- A blob that is read is there, or its name is not. -/
theorem reads_get {blobID : BlobID} {next : Reply → Call α} {post : α → Prop} (failed : Reads may (next .failed) post st)
    (absent : st.GetEncryptedBlob blobID = none → Reads may (next .notFound) post st)
    (there : ∀ p, st.GetEncryptedBlob blobID = some p → Reads may (next (.payload p)) post st) :
    Reads may (.ask (.GetEncryptedBlob blobID) next) post st := by
  refine reads_ask (.inr (.inl ⟨blobID,rfl⟩)) fun e => ?_
  cases e with
  | returns =>
    cases found : st.GetEncryptedBlob blobID with
    | none =>
      simp only [Storage.perform,found]
      exact absent found
    | some p =>
      simp only [Storage.perform,found]
      exact there p found
  | _ => exact failed

theorem reads_getCompactionLogEntries (blobs : List Metadata) : Reads may (getCompactionLogEntries blobs)
    (fun results => ∀ cl, cl ∈ results ↔ cl.1 ∈ blobs ∧ st.GetEncryptedBlob cl.1.BlobID = some (.compactionLog cl.2)) st := by
  induction blobs with
  | nil => exact reads_answer (by simp)
  | cons cb blobs ih =>
    refine reads_get reads_fail (fun absent => ?_) fun p there => ?_
    · refine ih.imp fun results mem cl => ?_
      rw [mem cl,List.mem_cons]
      refine and_congr_left fun found => ⟨.inr,fun member => member.resolve_left ?_⟩
      rintro same
      exact nomatch (same ▸ found).symm.trans absent
    · cases p with
      | compactionLog le =>
        refine reads_bind ih fun results mem => reads_answer fun cl => ?_
        rw [List.mem_cons,mem,List.mem_cons,or_and_right]
        refine or_congr_left ⟨?_,?_⟩
        · rintro rfl
          exact ⟨rfl,there⟩
        · rintro ⟨same,found⟩
          have equal := (same ▸ found).symm.trans there
          exact Prod.ext same (Payload.compactionLog.inj (Option.some.inj equal))
      | _ => exact reads_fail

theorem reads_getCleanupEntries (blobs : List Metadata) : Reads may (getCleanupEntries blobs)
    (fun results => ∀ e ∈ results, (∃ cb ∈ blobs, cb.BlobID = e.1) ∧ st.GetEncryptedBlob e.1 = some (.cleanup e.2)) st := by
  induction blobs with
  | nil => exact reads_answer nofun
  | cons cb blobs ih =>
    refine reads_get reads_fail (fun _ => ?_) fun p there => ?_
    · refine ih.imp fun results mem e member => ?_
      obtain ⟨⟨cb',inside,same⟩,found⟩ := mem e member
      exact ⟨⟨cb',List.mem_cons_of_mem cb inside,same⟩,found⟩
    · cases p with
      | cleanup le =>
        refine reads_bind ih fun results mem => ?_
        refine reads_answer (List.forall_mem_cons.mpr ⟨⟨⟨cb,List.mem_cons_self,rfl⟩,there⟩,fun e member => ?_⟩)
        obtain ⟨⟨cb',inside,same⟩,found⟩ := mem e member
        exact ⟨⟨cb',List.mem_cons_of_mem cb inside,same⟩,found⟩
      | _ => exact reads_fail

theorem removeCompactedIndexes_perm {bimap bimap' : List Metadata} {logs logs' : List compactionLogEntry} (indexes : bimap.Perm bimap')
    (same : ∀ le, le ∈ logs ↔ le ∈ logs') : (removeCompactedIndexes bimap logs).Perm (removeCompactedIndexes bimap' logs') := by
  have equal : removeCompactedIndexes bimap' logs = removeCompactedIndexes bimap' logs' := by
    refine List.filter_congr fun bm _ => ?_
    rw [Bool.eq_iff_iff,Bool.not_eq_true',Bool.not_eq_true',← Bool.not_eq_true,← Bool.not_eq_true]
    simp only [List.any_eq_true,List.mem_filter,same]
  have has (blobID : BlobID) : hasBlob bimap blobID = hasBlob bimap' blobID := by
    rw [Bool.eq_iff_iff,hasBlob_iff,hasBlob_iff]
    simp only [indexes.mem_iff]
  rw [← equal]
  unfold removeCompactedIndexes
  simp only [has]
  exact indexes.filter _

theorem reads_ListActiveIndexBlobs (named : st.Named) :
    Reads may ListActiveIndexBlobs (fun blobs => blobs.Perm (activeIndexBlobs st)) st := by
  refine reads_bind (reads_ListAllBlobs _) fun logs logs_perm => ?_
  refine reads_bind (reads_ListAllBlobs _) fun indexes indexes_perm => ?_
  refine reads_bind (reads_getCompactionLogEntries _) fun entries entries_mem => reads_answer ?_
  refine removeCompactedIndexes_perm indexes_perm fun le => ?_
  rw [List.mem_map,List.mem_map,← logged_iff]
  constructor
  · rintro ⟨cl,member,rfl⟩
    obtain ⟨b,inside,_,kind⟩ := (GetEncryptedBlob_eq named).mp ((entries_mem cl).mp member).2
    exact ⟨b,inside,kind⟩
  · rintro ⟨b,inside,kind⟩
    refine ⟨(b.metadata,le),(entries_mem _).mpr ⟨?_,(GetEncryptedBlob_eq named).mpr ⟨b,inside,rfl,kind⟩⟩,rfl⟩
    exact logs_perm.mem_iff.mpr (mem_listing.mpr ⟨b,inside,by rw [kind]; rfl,rfl⟩)

theorem reads_addIndexBlobsToBuilder (bld : Builder) (indexBlobs : List Metadata) : Reads may (addIndexBlobsToBuilder bld indexBlobs)
    (fun bld' => bld' = bld.addAll (indexBlobs.flatMap fun bm => entriesOf st bm.BlobID)) st := by
  induction indexBlobs generalizing bld with
  | nil => exact reads_answer rfl
  | cons bm indexBlobs ih =>
    refine reads_get reads_fail (fun _ => reads_fail) fun p there => ?_
    cases p with
    | index entries =>
      have own : entriesOf st bm.BlobID = entries := by rw [entriesOf,there]
      have split : bld.addAll ((bm :: indexBlobs).flatMap fun bm => entriesOf st bm.BlobID) =
          (bld.addAll entries).addAll (indexBlobs.flatMap fun bm => entriesOf st bm.BlobID) := by
        rw [List.flatMap_cons,own,Builder.addAll,List.foldl_append]
        rfl
      rw [split]
      exact ih _
    | _ => exact reads_fail

end Reading

end Vbe.IndexBlob.ManagerV0
