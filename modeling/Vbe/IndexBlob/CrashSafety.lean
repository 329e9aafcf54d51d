import Vbe.IndexBlob.Reading

/-! What a compaction that stops anywhere leaves of the merged index. -/
namespace Vbe.IndexBlob.ManagerV0
open Vbe.Index Vbe.Library

section Conditions

def Ending.hash : Ending → Option BlobID
  | .writes hash _ _ => some hash
  | .lost e => e.hash
  | _ => none

/-- Hashes do not collide: an equal name means equal contents, and that of an index blob, which ends with random
bytes, is new. -/
def Unambiguous (st : Storage) : Op → Option Ending → Prop
  | .EncryptAndWriteBlob payload, some e =>
    match e.hash with
    | none => True
    | some hash =>
      match payload with
      | .index _ => Fresh st (payload.blobPrefix ++ hash)
      | _ => ∀ b ∈ st, b.BlobID = payload.blobPrefix ++ hash → b.payload = payload
  | _, _ => True

/-- The merged index has the entry or a better one. -/
def Covered (st : Storage) (i : Info) : Prop :=
  ∃ j ∈ activeEntries st, j.contentID = i.contentID ∧ contentInfoGreaterThanStruct i j = false

/-- A log is deleted, or one of its outputs, only when what is left of its inputs says nothing that the merged
index does not. -/
def Careful (st : Storage) : Op → Option Ending → Prop
  | .DeleteBlob _, some .fails => True
  | .DeleteBlob blobID, some _ => ∀ cl ∈ compactionLogs st, (cl.1 = blobID ∨ ∃ o ∈ cl.2.OutputMetadata, o.BlobID = blobID) →
    ∀ input ∈ cl.2.InputMetadata, input.BlobID ≠ blobID → ∀ i ∈ entriesOf st input.BlobID, Covered st i
  | _, _ => True

/-- Names are distinct, and cleanup blobs list logs. -/
structure WellFormed (st : Storage) : Prop where
  named : st.Named
  cleanups : ∀ b ∈ st, ∀ e, b.payload = .cleanup e → ∀ blobID ∈ e.BlobIDs, V0CompactionLogBlobPrefix <+: blobID

variable {st : Storage} {b : Blob} {blobID : BlobID}

theorem WellFormed.delete (formed : WellFormed st) : WellFormed (st.DeleteBlob blobID) :=
  ⟨named_delete formed.named,fun b member => formed.cleanups b (mem_DeleteBlob.mp member).1⟩

theorem WellFormed.put (formed : WellFormed st)
    (lists : ∀ e, b.payload = .cleanup e → ∀ blobID ∈ e.BlobIDs, V0CompactionLogBlobPrefix <+: blobID) :
    WellFormed (st.PutBlob b) := by
  refine ⟨named_put formed.named,fun b' member => ?_⟩
  rcases mem_PutBlob.mp member with rfl | ⟨there,_⟩
  · exact lists
  · exact formed.cleanups b' there

theorem covered_iff (named : st.Named) {i : Info} : Covered st i ↔
    ∃ j, (∃ b, Active st b ∧ Has b j) ∧ j.contentID = i.contentID ∧ i.rank ≤ j.rank := by
  simp only [Covered,mem_activeEntries named,contentInfoGreaterThanStruct_eq_false]

theorem perform_delete (e : Ending) : (st.perform (.DeleteBlob blobID) e).1 = st ∨
    (st.perform (.DeleteBlob blobID) e).1 = st.DeleteBlob blobID := by
  induction e with
  | lost e ih => exact ih
  | returns => exact .inr rfl
  | fails => exact .inl rfl
  | lists blobs => exact .inl rfl
  | visits blobIDs => exact .inl rfl
  | writes hash length timestamp => exact .inl rfl

theorem perform_put {p : Payload} (e : Ending) : (st.perform (.EncryptAndWriteBlob p) e).1 = st ∨
    ∃ hash length timestamp, e.hash = some hash ∧
      (st.perform (.EncryptAndWriteBlob p) e).1 = st.PutBlob ⟨hash,length,timestamp,p⟩ := by
  induction e with
  | lost e ih => exact ih
  | returns => exact .inl rfl
  | fails => exact .inl rfl
  | lists blobs => exact .inl rfl
  | visits blobIDs => exact .inl rfl
  | writes hash length timestamp => exact .inr ⟨hash,length,timestamp,rfl,rfl⟩

/-- A blob that is reported as written was. -/
theorem perform_written {p : Payload} {e : Ending} {bm : Metadata} (written : (st.perform (.EncryptAndWriteBlob p) e).2 = .written bm) :
    ∃ b : Blob, b.payload = p ∧ b.metadata = bm ∧ e.hash = some b.hash ∧ (st.perform (.EncryptAndWriteBlob p) e).1 = st.PutBlob b := by
  cases e with
  | writes hash length timestamp => exact ⟨⟨hash,length,timestamp,p⟩,rfl,Reply.written.inj written,rfl,rfl⟩
  | _ => exact nomatch written

end Conditions

section Keeping
variable {st0 st : Storage} {keep : List Blob} {b : Blob} {blobID : BlobID}

def Holding (keep : List Blob) (i : Info) : Prop := ∃ b ∈ keep, Has b i

def Merged (st : Storage) (i : Info) : Prop := ∃ b, Active st b ∧ Has b i

/-- Some active blobs say all that the merged index says, and what they say is live was live at the start. -/
structure Keeps (st0 : Storage) (keep : List Blob) (st : Storage) : Prop where
  formed : WellFormed st
  active : ∀ b ∈ keep, Active st b
  covered : Dominates (Holding keep) (Merged st)
  live : ∀ id, LiveIn (Holding keep) id ↔ Live st0 id

theorem Keeps.same (keeps : Keeps st0 keep st) (id : ID) : Live st id ↔ Live st0 id := by
  rw [live_iff keeps.formed.named,← keeps.live id]
  have inside : Dominates (Merged st) (Holding keep) := .of_subset fun i ⟨b,member,has⟩ => ⟨b,keeps.active b member,has⟩
  exact keeps.covered.live_iff inside

open Classical in
theorem Keeps.start (formed : WellFormed st) : Keeps st (st.filter fun b => Active st b) st := by
  have same (i : Info) : Holding (st.filter fun b => Active st b) i ↔ Merged st i := by
    simp only [Holding,Merged,List.mem_filter,decide_eq_true_eq]
    exact exists_congr fun b => and_congr_left fun _ => ⟨fun both => both.2,fun active => ⟨active.1,active⟩⟩
  refine ⟨formed,fun b member => of_decide_eq_true (List.mem_filter.mp member).2,.of_subset fun i => (same i).mpr,fun id => ?_⟩
  rw [live_iff formed.named]
  exact Dominates.live_iff (.of_subset fun i => (same i).mp) (.of_subset fun i => (same i).mpr)

theorem Keeps.delete (keeps : Keeps st0 keep st) (other : ∀ b ∈ keep, b.BlobID ≠ blobID) {e : Ending}
    (careful : Careful st (.DeleteBlob blobID) (some e)) : Keeps st0 keep (st.perform (.DeleteBlob blobID) e).1 := by
  have named := keeps.formed.named
  by_cases same : (st.perform (.DeleteBlob blobID) e).1 = st
  · rwa [same]
  have deleted := (perform_delete e).resolve_left same
  have safe : ∀ cl ∈ compactionLogs st, (cl.1 = blobID ∨ ∃ o ∈ cl.2.OutputMetadata, o.BlobID = blobID) →
      ∀ input ∈ cl.2.InputMetadata, input.BlobID ≠ blobID → ∀ i ∈ entriesOf st input.BlobID, Covered st i := by
    cases e with
    | fails => exact absurd rfl same
    | _ => exact careful
  rw [deleted]
  refine ⟨keeps.formed.delete,fun b member => (keeps.active b member).delete (other b member),?_,keeps.live⟩
  rintro i ⟨b,active,has⟩
  rcases active.of_delete with active' | ⟨cl,logged,lost,m,input,named'⟩
  · exact keeps.covered i ⟨b,active',has⟩
  · obtain ⟨member,differs⟩ := mem_DeleteBlob.mp active.1
    obtain ⟨entries,kind,inside⟩ := has
    have there : i ∈ entriesOf st m.BlobID := (mem_entriesOf named).mpr ⟨b,member,entries,named'.symm,kind,inside⟩
    obtain ⟨j,merged,same',above⟩ := (covered_iff named).mp (safe cl logged lost m input (named' ▸ differs) i there)
    obtain ⟨k,holds,same'',above'⟩ := keeps.covered j merged
    exact ⟨k,holds,same''.trans same',above.trans above'⟩

/-- A new index blob that says nothing new. -/
theorem Keeps.put_index (keeps : Keeps st0 keep st) {entries : List Info} (index : b.payload = .index entries)
    (fresh : Fresh st b.BlobID) (old : ∀ i ∈ entries, Holding keep i) : Keeps st0 keep (st.PutBlob b) := by
  refine ⟨keeps.formed.put fun e cleanup => (nomatch index.symm.trans cleanup),?_,?_,keeps.live⟩
  · exact fun b' member => (active_put_index fresh index).mpr (.inr (keeps.active b' member))
  · rintro i ⟨b',active,has⟩
    rcases (active_put_index fresh index).mp active with rfl | active'
    · obtain ⟨entries',kind,inside⟩ := has
      cases index.symm.trans kind
      exact ⟨i,old i inside,rfl,le_rfl⟩
    · exact keeps.covered i ⟨b',active',has⟩

theorem Keeps.put_cleanup (keeps : Keeps st0 keep st) {e : cleanupEntry} (cleanup : b.payload = .cleanup e) (agrees : Agrees st b)
    (lists : ∀ blobID ∈ e.BlobIDs, V0CompactionLogBlobPrefix <+: blobID) : Keeps st0 keep (st.PutBlob b) := by
  refine ⟨keeps.formed.put fun e' cleanup' => ?_,?_,?_,keeps.live⟩
  · cases cleanup.symm.trans cleanup'
    exact lists
  · exact fun b' member => (active_put_cleanup agrees cleanup).mpr (keeps.active b' member)
  · rintro i ⟨b',active,has⟩
    exact keeps.covered i ⟨b',(active_put_cleanup agrees cleanup).mp active,has⟩

/-- A log that hides all active blobs but its outputs, which say the same of what is live. -/
theorem Keeps.put_log (keeps : Keeps st0 keep st) {le : compactionLogEntry} (log : b.payload = .compactionLog le)
    (agrees : Agrees st b) {outs : List Blob} (honoured : Honoured st le) (active : ∀ out ∈ outs, Active st out)
    (unlisted : ∀ out ∈ outs, ∀ m ∈ le.InputMetadata, m.BlobID ≠ out.BlobID)
    (hides : ∀ b', Active st b' → b' ∈ outs ∨ ∃ m ∈ le.InputMetadata, m.BlobID = b'.BlobID)
    (live : ∀ id, LiveIn (Holding outs) id ↔ Live st0 id) : Keeps st0 outs (st.PutBlob b) := by
  refine ⟨keeps.formed.put fun e cleanup => (nomatch log.symm.trans cleanup),fun out member => ?_,?_,live⟩
  · refine (active_put_log agrees log).mpr ⟨active out member,?_⟩
    rintro ⟨_,m,input,same⟩
    exact unlisted out member m input same
  · rintro i ⟨b',active',has⟩
    obtain ⟨there,free⟩ := (active_put_log agrees log).mp active'
    rcases hides b' there with out | input
    · exact ⟨i,⟨b',out,has⟩,rfl,le_rfl⟩
    · exact absurd ⟨honoured,input⟩ free

end Keeping

section Programs
variable {α β : Type} {st0 st : Storage} {keep : List Blob}

abbrev May (st : Storage) (op : Op) (e : Option Ending) : Prop := Unambiguous st op e ∧ Careful st op e

def Kept (st0 st : Storage) : Prop := ∃ keep, Keeps st0 keep st

/-- Wherever a program stops what is live is kept, and a condition holds of its answer. -/
abbrev Leads (st0 : Storage) (p : Call α) (post : Storage → α → Prop) (st : Storage) : Prop :=
  p.Pre Storage.perform May (fun st' result => Kept st0 st' ∧ ∀ a, result = some (.ok a) → post st' a) st

theorem leads_fail {post : Storage → α → Prop} (kept : Kept st0 st) : Leads st0 (.fail () : Call α) post st := ⟨kept,fun _ => nofun⟩

theorem leads_answer {post : Storage → α → Prop} {a : α} (kept : Kept st0 st) (holds : post st a) : Leads st0 (.answer a) post st :=
  ⟨kept,fun _ same => Except.ok.inj (Option.some.inj same) ▸ holds⟩

theorem leads_bind {p : Call α} {f : α → Call β} {mid : Storage → α → Prop} {post : Storage → β → Prop} (first : Leads st0 p mid st)
    (rest : ∀ st' a, mid st' a → Leads st0 (f a) post st') : Leads st0 (p >>= f) post st := by
  refine Query.Pre.bind (first.mono fun st' result both => ?_)
  match result with
  | none => exact ⟨both.1,fun _ => nofun⟩
  | some (.error e) => exact ⟨both.1,fun _ => nofun⟩
  | some (.ok a) => exact rest st' a (both.2 a rfl)

/-- A question that changes nothing. -/
theorem leads_read {op : Op} {next : Reply → Call α} {post : Storage → α → Prop}
    (reads : (∃ p, op = .ListBlobs p) ∨ (∃ blobID, op = .GetEncryptedBlob blobID) ∨ ∃ keys, op = .visit keys) (kept : Kept st0 st)
    (rest : ∀ e, Leads st0 (next (st.perform op e).2) post st) : Leads st0 (.ask op next) post st :=
  ⟨fun _ => ⟨kept,fun _ => nofun⟩,fun e _ => (perform_read reads e).symm ▸ rest e⟩

theorem Reads.leads {p : Call α} {post : α → Prop} (reads : Reads May p post st) (kept : Kept st0 st) :
    Leads st0 p (fun st' a => st' = st ∧ post a) st := by
  refine reads.mono fun st' result upon => ?_
  match result with
  | none =>
    obtain rfl : st' = st := upon
    exact ⟨kept,fun _ => nofun⟩
  | some (.error e) =>
    obtain rfl : st' = st := upon
    exact ⟨kept,fun _ => nofun⟩
  | some (.ok a) =>
    obtain ⟨rfl,holds⟩ : st' = st ∧ post a := upon
    exact ⟨kept,fun _ same => Except.ok.inj (Option.some.inj same) ▸ ⟨rfl,holds⟩⟩

/-- New index blobs with the entries of shards. -/
structure Wrote (st st' : Storage) (shards : List Builder) (outs : List Blob) : Prop where
  entries : List.Forall₂ (fun shard out => out.payload = .index shard.sortedContents) shards outs
  active : ∀ b, Active st' b ↔ b ∈ outs ∨ Active st b
  new : ∀ out ∈ outs, ∀ b ∈ st, b.BlobID ≠ out.BlobID
  unlisted : ∀ out ∈ outs, ∀ le, Logged st le → ∀ m ∈ le.InputMetadata, m.BlobID ≠ out.BlobID
  logged : ∀ le, Logged st' le ↔ Logged st le

theorem Wrote.nil (st : Storage) : Wrote st st [] [] := ⟨.nil,fun b => by simp,nofun,nofun,fun _ => Iff.rfl⟩

theorem logged_put_index {b : Blob} (fresh : Fresh st b.BlobID) {entries : List Info} (index : b.payload = .index entries)
    (le : compactionLogEntry) : Logged (st.PutBlob b) le ↔ Logged st le := by
  have agrees : Agrees st b := fun b' member same => absurd same (fresh.1 b' member)
  simp only [Logged,payload_put agrees,index,reduceCtorEq,false_or]

theorem Wrote.cons {st' : Storage} {b : Blob} {shard : Builder} {shards : List Builder} {outs : List Blob}
    (fresh : Fresh st b.BlobID) (index : b.payload = .index shard.sortedContents) (wrote : Wrote (st.PutBlob b) st' shards outs) :
    Wrote st st' (shard :: shards) (b :: outs) := by
  have logged := logged_put_index fresh index
  refine ⟨.cons index wrote.entries,fun b' => ?_,?_,?_,fun le => (wrote.logged le).trans (logged le)⟩
  · rw [wrote.active,active_put_index fresh index,List.mem_cons]
    tauto
  · refine List.forall_mem_cons.mpr ⟨fresh.1,fun out member b' there => ?_⟩
    exact wrote.new out member b' (mem_PutBlob.mpr (.inr ⟨there,fresh.1 b' there⟩))
  · refine List.forall_mem_cons.mpr ⟨fun le there m input => ?_,fun out member le there => ?_⟩
    · obtain ⟨cl,inside,rfl⟩ := logged_iff.mp there
      exact (fresh.2 cl inside).1 m input
    · exact wrote.unlisted out member le ((logged le).mpr there)

theorem leads_WriteIndexBlobs (keeps : Keeps st0 keep st) (shards : List Builder)
    (old : ∀ shard ∈ shards, ∀ i ∈ shard.infos, Holding keep i) :
    Leads st0 (WriteIndexBlobs shards) (fun st' bms => Keeps st0 keep st' ∧ ∃ outs, bms = outs.map Blob.metadata ∧
      Wrote st st' shards outs) st := by
  induction shards generalizing st with
  | nil => exact leads_answer ⟨keep,keeps⟩ ⟨keeps,[],rfl,.nil st⟩
  | cons shard shards ih =>
    have inside : ∀ i ∈ shard.sortedContents, Holding keep i := fun i member =>
      old shard List.mem_cons_self i (mem_sortedContents.mp member)
    have put {b : Blob} {e : Ending} (may : May st (.EncryptAndWriteBlob (.index shard.sortedContents)) (some e))
        (index : b.payload = .index shard.sortedContents) (named : e.hash = some b.hash) : Fresh st b.BlobID := by
      have unambiguous := may.1
      simp only [Unambiguous,named] at unambiguous
      rw [Blob.BlobID,index]
      exact unambiguous
    refine ⟨fun _ => ⟨⟨keep,keeps⟩,fun _ => nofun⟩,fun e may => ?_⟩
    cases reply : (st.perform (.EncryptAndWriteBlob (.index shard.sortedContents)) e).2 with
    | written bm =>
      obtain ⟨b,index,rfl,named,after⟩ := perform_written reply
      have fresh := put may index named
      rw [after]
      refine leads_bind (ih (keeps.put_index index fresh inside) fun s member => old s (List.mem_cons_of_mem shard member)) ?_
      rintro st' _ ⟨keeps',outs,rfl,wrote⟩
      exact leads_answer ⟨keep,keeps'⟩ ⟨keeps',b :: outs,rfl,wrote.cons fresh index⟩
    | _ =>
      rcases perform_put e with same | ⟨hash,length,timestamp,named,after⟩
      · rw [same]
        exact leads_fail ⟨keep,keeps⟩
      · rw [after]
        exact leads_fail ⟨keep,keeps.put_index rfl (put may rfl named) inside⟩

theorem leads_deleteBlobs (keeps : Keeps st0 keep st) (blobIDs : List BlobID) (other : ∀ x ∈ blobIDs, ∀ b ∈ keep, b.BlobID ≠ x) :
    Leads st0 (deleteBlobs blobIDs) (fun st' _ => Keeps st0 keep st') st := by
  induction blobIDs generalizing st with
  | nil => exact leads_answer ⟨keep,keeps⟩ keeps
  | cons blobID blobIDs ih =>
    refine ⟨fun _ => ⟨⟨keep,keeps⟩,fun _ => nofun⟩,fun e may => ?_⟩
    have keeps' := keeps.delete (other blobID List.mem_cons_self) may.2
    cases (st.perform (.DeleteBlob blobID) e).2 with
    | done => exact ih keeps' fun x member => other x (List.mem_cons_of_mem blobID member)
    | _ => exact leads_fail ⟨keep,keeps'⟩

theorem leads_deleteBlobsFromStorageAndCache (keeps : Keeps st0 keep st) (blobIDs : List BlobID)
    (other : ∀ x ∈ blobIDs, ∀ b ∈ keep, b.BlobID ≠ x) :
    Leads st0 (deleteBlobsFromStorageAndCache blobIDs) (fun st' _ => Keeps st0 keep st') st := by
  have kept : Kept st0 st := ⟨keep,keeps⟩
  refine leads_read (.inr (.inr ⟨blobIDs,rfl⟩)) kept fun e => ?_
  cases e with
  | visits order =>
    by_cases perm : order.Perm blobIDs
    · simp only [Storage.perform,if_pos perm]
      exact leads_deleteBlobs keeps order fun x member => other x (perm.mem_iff.mp member)
    · simp only [Storage.perform,if_neg perm]
      exact leads_fail kept
  | _ => exact leads_fail kept

/-- A blob of a kind other than an index is written: of it and what there was, something holds in each case. -/
theorem leads_put {p : Payload} {next : Reply → Call α} {post : Storage → α → Prop} (kept : Kept st0 st)
    (other : ∀ entries, p ≠ .index entries) (failed : ∀ reply, (∀ bm, reply ≠ .written bm) → next reply = .fail ())
    (put : ∀ b : Blob, b.payload = p → Agrees st b → Kept st0 (st.PutBlob b) ∧ Leads st0 (next (.written b.metadata)) post (st.PutBlob b)) :
    Leads st0 (.ask (.EncryptAndWriteBlob p) next) post st := by
  have agrees {b : Blob} {e : Ending} (may : May st (.EncryptAndWriteBlob p) (some e)) (kind : b.payload = p)
      (named : e.hash = some b.hash) : Agrees st b := by
    have unambiguous := may.1
    simp only [Unambiguous,named] at unambiguous
    rw [Agrees,Blob.BlobID,kind]
    cases p with
    | index entries => exact absurd rfl (other entries)
    | _ => exact unambiguous
  refine ⟨fun _ => ⟨kept,fun _ => nofun⟩,fun e may => ?_⟩
  by_cases written : ∃ bm, (st.perform (.EncryptAndWriteBlob p) e).2 = .written bm
  · obtain ⟨bm,reply⟩ := written
    obtain ⟨b,kind,rfl,named,after⟩ := perform_written reply
    rw [reply,after]
    exact (put b kind (agrees may kind named)).2
  · rw [failed _ fun bm same => written ⟨bm,same⟩]
    rcases perform_put e with same | ⟨hash,length,timestamp,named,after⟩
    · rw [same]
      exact leads_fail kept
    · rw [after]
      exact leads_fail (put ⟨hash,length,timestamp,p⟩ rfl (agrees may rfl named)).1

theorem leads_delayCleanupBlobs (keeps : Keeps st0 keep st) (blobIDs : List BlobID) (time : Time)
    (logs : ∀ x ∈ blobIDs, V0CompactionLogBlobPrefix <+: x) :
    Leads st0 (delayCleanupBlobs blobIDs time) (fun st' _ => Kept st0 st') st := by
  have kept : Kept st0 st := ⟨keep,keeps⟩
  unfold delayCleanupBlobs
  split
  next => exact leads_answer kept kept
  next =>
    refine leads_put kept nofun (fun reply other => ?_) fun b kind agrees => ?_
    · cases reply with
      | written bm => exact absurd rfl (other bm)
      | _ => rfl
    · have kept' : Kept st0 (st.PutBlob b) := ⟨keep,keeps.put_cleanup kind agrees logs⟩
      exact ⟨kept',leads_answer kept' kept'⟩

theorem prefix_of_listing {p : BlobID} {bm : Metadata} (listed : bm ∈ st.listing p) : p <+: bm.BlobID := by
  obtain ⟨b,_,rfl,rfl⟩ := mem_listing.mp listed
  exact List.prefix_append _ _

theorem leads_deleteOldBlobs (keeps : Keeps st0 keep st) (latestBlob : Metadata) (settle : Duration)
    (unlisted : ∀ b ∈ keep, ∀ le, Logged st le → ∀ m ∈ le.InputMetadata, m.BlobID ≠ b.BlobID) :
    Leads st0 (deleteOldBlobs latestBlob settle) (fun st' _ => Kept st0 st') st := by
  have kept : Kept st0 st := ⟨keep,keeps⟩
  refine leads_bind ((reads_ListAllBlobs _).leads kept) fun st1 all listed => ?_
  obtain ⟨rfl,listed⟩ := listed
  refine leads_bind ((reads_getCompactionLogEntries _).leads kept) fun st1 entries read => ?_
  obtain ⟨rfl,read⟩ := read
  refine leads_bind (leads_deleteBlobsFromStorageAndCache keeps _ ?_) fun st2 _ keeps' => ?_
  · intro x member b inside same
    simp only [findIndexBlobsToDelete,List.mem_dedup,List.mem_flatMap,List.mem_filter,List.mem_map] at member
    obtain ⟨cl,⟨logged,_⟩,m,input,rfl⟩ := member
    obtain ⟨log,there,_,kind⟩ := (GetEncryptedBlob_eq keeps.formed.named).mp ((read cl).mp logged).2
    exact unlisted b inside cl.2 ⟨log,there,kind⟩ m input same.symm
  · refine leads_delayCleanupBlobs keeps' _ _ fun x member => ?_
    obtain ⟨bm,old,rfl⟩ := List.mem_map.mp member
    exact prefix_of_listing (listed.mem_iff.mp (List.mem_filter.mp old).1)

/-- The log of a compaction of all active blobs. -/
theorem leads_registerCompaction {st' : Storage} {shards : List Builder} {outs : List Blob} {inputs : List Metadata}
    (settle : Duration) (keeps : Keeps st0 keep st') (wrote : Wrote st st' shards outs)
    (inputs_mem : ∀ bm, bm ∈ inputs ↔ bm ∈ activeIndexBlobs st) (live : ∀ id, LiveIn (Holding outs) id ↔ Live st0 id) :
    Leads st0 (registerCompaction inputs (outs.map Blob.metadata) settle) (fun st' _ => Kept st0 st') st' := by
  have kept : Kept st0 st' := ⟨keep,keeps⟩
  have active (out : Blob) (member : out ∈ outs) : Active st' out := (wrote.active out).mpr (.inl member)
  have input (m : Metadata) (member : m ∈ inputs) (out : Blob) (inside : out ∈ outs) : m.BlobID ≠ out.BlobID := by
    obtain ⟨b,there,rfl⟩ := mem_activeIndexBlobs.mp ((inputs_mem m).mp member)
    exact wrote.new out inside b there.1
  refine leads_put kept nofun (fun reply other => ?_) fun b kind agrees => ?_
  · cases reply with
    | written bm => exact absurd rfl (other bm)
    | _ => rfl
  · have keeps' : Keeps st0 outs (st'.PutBlob b) := by
      refine keeps.put_log kind agrees (fun o output => ?_) active (fun out inside m member => input m member out inside) ?_ live
      · obtain ⟨out,inside,rfl⟩ := List.mem_map.mp output
        obtain ⟨there,⟨entries,index⟩,_⟩ := active out inside
        exact ⟨out,there,entries,index,rfl⟩
      · intro b' active'
        rcases (wrote.active b').mp active' with out | old
        · exact .inl out
        · exact .inr ⟨b'.metadata,(inputs_mem _).mpr (mem_activeIndexBlobs.mpr ⟨b',old,rfl⟩),rfl⟩
    refine ⟨⟨outs,keeps'⟩,leads_deleteOldBlobs keeps' _ _ fun out inside le logged m member => ?_⟩
    have either := (payload_put agrees).mp logged
    rw [kind,Payload.compactionLog.injEq] at either
    rcases either with rfl | there
    · exact input m member out inside
    · exact wrote.unlisted out inside le ((wrote.logged le).mp there) m member

theorem leads_cleanup (kept : Kept st0 st) (settle : Duration) : Leads st0 (cleanup settle) (fun st' _ => Kept st0 st') st := by
  obtain ⟨keep,keeps⟩ := kept
  have other {st : Storage} (keeps : Keeps st0 keep st) {p x : BlobID} (starts : p <+: x) (differs : p.head? ≠ some 110)
      (some : p ≠ []) (b : Blob) (member : b ∈ keep) : b.BlobID ≠ x := by
    obtain ⟨_,⟨entries,index⟩,_⟩ := keeps.active b member
    rintro rfl
    rw [Blob.BlobID,index] at starts
    obtain ⟨rest,same⟩ := starts
    cases p with
    | nil => exact absurd rfl some
    | cons c p => exact differs (congrArg Option.some (List.cons.inj same).1)
  refine leads_bind ((reads_ListAllBlobs _).leads ⟨keep,keeps⟩) fun st1 all listed => ?_
  obtain ⟨rfl,listed⟩ := listed
  refine leads_bind ((reads_getCleanupEntries _).leads ⟨keep,keeps⟩) fun st1 entries read => ?_
  obtain ⟨rfl,read⟩ := read
  refine leads_bind (leads_deleteBlobsFromStorageAndCache keeps _ fun x member => ?_) fun st2 _ keeps' => ?_
  · obtain ⟨e,old,inside⟩ := List.mem_flatMap.mp member
    obtain ⟨b,there,_,kind⟩ := (GetEncryptedBlob_eq keeps.formed.named).mp (read e (List.mem_filter.mp old).1).2
    exact other keeps (keeps.formed.cleanups b there e.2 kind x inside) (by decide) (by decide)
  · refine (leads_deleteBlobsFromStorageAndCache keeps' _ fun x member => ?_).mono fun st3 result both =>
      ⟨both.1,fun a ended => ⟨keep,both.2 a ended⟩⟩
    obtain ⟨e,old,rfl⟩ := List.mem_map.mp member
    obtain ⟨cb,inside,same⟩ := (read e (List.mem_filter.mp old).1).1
    exact other keeps' (same ▸ prefix_of_listing (listed.mem_iff.mp inside)) (by decide) (by decide)

theorem getBlobsToCompact_DropDeletedContents (indexBlobs : List Metadata) (dropDeletedBefore : Option Time) (disable : Bool)
    (mp : Formatting) : getBlobsToCompact indexBlobs (DropDeletedContents dropDeletedBefore disable) mp = indexBlobs := by
  simp [getBlobsToCompact,DropDeletedContents]

theorem holding_shards {shards : List Builder} {outs : List Blob}
    (entries : List.Forall₂ (fun shard out => out.payload = .index shard.sortedContents) shards outs) (i : Info) :
    Holding outs i ↔ ∃ shard ∈ shards, i ∈ shard.infos := by
  induction entries with
  | nil => simp [Holding]
  | cons index rest ih =>
    have own (out : Blob) (shard : Builder) (index : out.payload = .index shard.sortedContents) : Has out i ↔ i ∈ shard.infos := by
      simp only [Has,index,Payload.index.injEq,exists_eq_left',mem_sortedContents]
    simp only [Holding,List.mem_cons,exists_eq_or_imp,own _ _ index] at ih ⊢
    rw [ih]

open Classical in
theorem leads_compactIndexBlobs (formed : WellFormed st) (mp : Option Formatting) {inputs : List Metadata}
    (inputs_mem : ∀ bm, bm ∈ inputs ↔ bm ∈ activeIndexBlobs st) (dropDeletedBefore : Option Time) (disable : Bool) :
    Leads st (compactIndexBlobs mp inputs (DropDeletedContents dropDeletedBefore disable)) (fun st' _ => Kept st st') st := by
  have keeps := Keeps.start formed
  have kept : Kept st st := ⟨_,keeps⟩
  unfold compactIndexBlobs
  split
  next => exact leads_answer kept kept
  cases mp with
  | none => exact leads_fail kept
  | some mp =>
    refine leads_bind ((reads_addIndexBlobsToBuilder _ _).leads kept) ?_
    rintro st1 bld ⟨rfl,rfl⟩
    have collected (i : Info) : i ∈ (inputs.flatMap fun bm => entriesOf st1 bm.BlobID) ↔ Merged st1 i := by
      rw [Merged,← mem_activeEntries formed.named,activeEntries]
      simp only [List.mem_flatMap,inputs_mem]
    dsimp only
    split
    next => exact leads_fail kept
    next dataShards sharded =>
      have shards : Builder.shard _ DefaultIndexShardSize = some dataShards := (Option.ite_none_right_eq_some.mp sharded).2
      have whole := (Builder.shard_infos shards).2
      refine leads_bind (leads_WriteIndexBlobs keeps dataShards fun shard member i inside => ?_) ?_
      · obtain ⟨b,active,has⟩ := (collected i).mp (mem_of_addAll (mem_dropped ((whole i).mp ⟨shard,member,inside⟩)))
        exact ⟨b,List.mem_filter.mpr ⟨active.1,decide_eq_true active⟩,has⟩
      · rintro st' _ ⟨keeps',outs,rfl,wrote⟩
        refine leads_registerCompaction _ keeps' wrote inputs_mem fun id => ?_
        have same : Holding outs = (· ∈ Builder.infos _) := funext fun i => propext ((holding_shards wrote.entries i).trans (whole i))
        rw [same,live_infos,DropDeletedContents,live_dropped,← live_addAll,live_iff formed.named]
        simp only [collected]
        rfl

end Programs

/-- Wherever a compaction stops that is careful with what it deletes, what is live is what was. -/
theorem compaction_keeps_live (mp mp' : Option Formatting) (dropDeletedBefore : Option Time) (disable : Bool) (st : Storage)
    (formed : WellFormed st) (endings : List Ending)
    (unambiguous : (Compact mp mp' (DropDeletedContents dropDeletedBefore disable)).Along Storage.perform Unambiguous endings st)
    (careful : (Compact mp mp' (DropDeletedContents dropDeletedBefore disable)).Along Storage.perform Careful endings st) (id : ID) :
    Live ((Compact mp mp' (DropDeletedContents dropDeletedBefore disable)).steps Storage.perform endings st).1 id ↔ Live st id := by
  have keeps := Keeps.start formed
  have leads : Leads st (Compact mp mp' (DropDeletedContents dropDeletedBefore disable)) (fun _ _ => True) st := by
    refine leads_bind ((reads_ListActiveIndexBlobs formed.named).leads ⟨_,keeps⟩) ?_
    rintro st1 indexBlobs ⟨rfl,indexes⟩
    cases mp with
    | none => exact leads_fail ⟨_,keeps⟩
    | some mp =>
      dsimp only
      rw [getBlobsToCompact_DropDeletedContents]
      refine leads_bind (leads_compactIndexBlobs formed mp' (fun bm => indexes.mem_iff) dropDeletedBefore disable) fun st2 _ kept => ?_
      exact (leads_cleanup kept _).mono fun st3 result both => ⟨both.1,fun _ _ => trivial⟩
  obtain ⟨keep,keeps'⟩ := (leads.steps (unambiguous.and careful)).1
  exact keeps'.same id

section Examples

instance decidableLive (st : Storage) (id : ID) : Decidable (Live st id) :=
  decidable_of_iff (((Builder.empty.addAll (activeEntries st)).get? id).any fun i => !i.deleted) (by simp [Live,Option.any_eq_true])

instance decidableFresh (st : Storage) (blobID : BlobID) : Decidable (Fresh st blobID) := by
  unfold Fresh
  infer_instance

instance decidableUnambiguous (st : Storage) (op : Op) (e : Option Ending) : Decidable (Unambiguous st op e) := by
  unfold Unambiguous
  repeat' split
  all_goals infer_instance

instance decidableCareful (st : Storage) (op : Op) (e : Option Ending) : Decidable (Careful st op e) := by
  unfold Careful Covered
  split <;> infer_instance

def someInfo (contentID : ID) (timestampSeconds : Int) (deleted : Bool) : Info where
  packBlobID := [112]
  timestampSeconds := timestampSeconds
  originalLength := 9
  packedLength := 9
  packOffset := 0
  compressionHeaderID := 0
  contentID := contentID
  deleted := deleted
  formatVersion := 2
  encryptionKeyID := 0

def deletedContent : ID := ⟨0,[1]⟩

def keptContent : ID := ⟨0,[2]⟩

def oldest : Blob := ⟨[65],100,0,.index [someInfo deletedContent 5 false,someInfo keptContent 5 false]⟩

def older : Blob := ⟨[66],100,0,.index [someInfo deletedContent 5 false,someInfo keptContent 5 false]⟩

def deletion : Blob := ⟨[67],50,0,.index [someInfo deletedContent 6 true]⟩

def latest : Blob := ⟨[68],50,0,.index [someInfo keptContent 5 false]⟩

def firstLog : Blob := ⟨[1],20,1,.compactionLog ⟨[oldest.metadata],[older.metadata]⟩⟩

def secondLog : Blob := ⟨[2],20,2,.compactionLog ⟨[older.metadata,deletion.metadata],[latest.metadata]⟩⟩

/-- Two compactions, of which the second dropped a content that was deleted after the first. -/
def someStorage : Storage := [oldest,older,deletion,latest,firstLog,secondLog]

def someFormatting : Formatting := ⟨20971520,fun _ => true⟩

/-- A third compaction more than an hour later, up to its deletions. -/
def untilDeletion : List Ending :=
  [.lists [firstLog.metadata,secondLog.metadata],
    .lists [oldest.metadata,older.metadata,deletion.metadata,latest.metadata],.returns,.returns,.returns,.writes [69] 50 7200000000000,.writes [3] 20 7200000000000,
    .lists [⟨[109,3],20,7200000000000⟩,firstLog.metadata,secondLog.metadata],.returns,.returns]

theorem someStorage_formed : WellFormed someStorage :=
  ⟨by unfold Storage.Named; decide,by simp [someStorage,oldest,older,deletion,latest,firstLog,secondLog]⟩

/-- The rest of the compaction, with the oldest blob deleted first. -/
def orderly : List Ending :=
  untilDeletion ++ [.visits [oldest.BlobID,deletion.BlobID,older.BlobID],.returns,.returns,.returns,.writes [1] 20 7200000000001,
    .lists [⟨[108,1],20,7200000000001⟩],.returns,.visits [],.visits []]

/-- A deletion of the output of the first compaction, after which the compaction stops. -/
def disorderly : List Ending := untilDeletion ++ [.visits [older.BlobID,oldest.BlobID,deletion.BlobID],.returns]

theorem compaction_keeps_live_orderly : Live ((Compact (some someFormatting) (some someFormatting)
    (DropDeletedContents (some 10000000000) false)).steps Storage.perform orderly someStorage).1 deletedContent ↔
      Live someStorage deletedContent :=
  compaction_keeps_live (some someFormatting) (some someFormatting) (some 10000000000) false someStorage someStorage_formed orderly
    (by decide +kernel) (by decide +kernel) deletedContent

/-- The first log no longer counts, and its input is still there. -/
theorem compaction_resurrects : ¬ ∀ (mp mp' : Option Formatting) (dropDeletedBefore : Option Time) (disable : Bool) (st : Storage),
    WellFormed st → ∀ endings : List Ending,
    (Compact mp mp' (DropDeletedContents dropDeletedBefore disable)).Along Storage.perform Unambiguous endings st → ∀ id,
    Live ((Compact mp mp' (DropDeletedContents dropDeletedBefore disable)).steps Storage.perform endings st).1 id ↔ Live st id := by
  intro claim
  have same := claim (some someFormatting) (some someFormatting) (some 10000000000) false someStorage someStorage_formed disorderly
    (by decide +kernel) deletedContent
  revert same
  decide +kernel

end Examples


end Vbe.IndexBlob.ManagerV0
