import Vbe.IndexBlob.CrashSafety

/-! What a compaction that ends has made of the active index blobs, where none was interrupted before. -/
namespace Vbe.IndexBlob.ManagerV0
open Vbe.Index Vbe.Library

section Removal
variable {st : Storage} {b : Blob} {blobIDs : List BlobID}

def Storage.without (st : Storage) (blobIDs : List BlobID) : Storage := st.filter fun b => b.BlobID ∉ blobIDs

theorem mem_without : b ∈ st.without blobIDs ↔ b ∈ st ∧ b.BlobID ∉ blobIDs := by simp [Storage.without]

theorem without_congr {blobIDs' : List BlobID} (same : ∀ x, x ∈ blobIDs ↔ x ∈ blobIDs') : st.without blobIDs = st.without blobIDs' := by
  simp only [Storage.without,same]

theorem without_cons (blobID : BlobID) : st.without (blobID :: blobIDs) = (st.DeleteBlob blobID).without blobIDs := by
  rw [Storage.without,Storage.without,Storage.DeleteBlob,List.filter_filter]
  refine List.filter_congr fun b _ => ?_
  simp [not_or,Bool.and_comm]

theorem WellFormed.without (formed : WellFormed st) (blobIDs : List BlobID) : WellFormed (st.without blobIDs) :=
  ⟨List.Nodup.sublist (List.filter_sublist.map _) formed.named,fun b member => formed.cleanups b (mem_without.mp member).1⟩

/-- Blobs that are not active are deleted, and with a log or one of its outputs all its inputs. -/
theorem active_without (kept : ∀ b, Active st b → b.BlobID ∉ blobIDs)
    (whole : ∀ log ∈ st, ∀ le, log.payload = .compactionLog le → (log.BlobID ∈ blobIDs ∨ ∃ o ∈ le.OutputMetadata, o.BlobID ∈ blobIDs) →
      ∀ m ∈ le.InputMetadata, ∀ b ∈ st, b.BlobID = m.BlobID → b.BlobID ∈ blobIDs) :
    Active (st.without blobIDs) b ↔ Active st b := by
  constructor
  · rintro ⟨member,index,free⟩
    obtain ⟨there,stays⟩ := mem_without.mp member
    refine ⟨there,index,?_⟩
    rintro ⟨le,⟨log,logged,kind⟩,honoured,m,input,same⟩
    refine free ⟨le,⟨log,mem_without.mpr ⟨logged,?_⟩,kind⟩,fun o output => ?_,m,input,same⟩
    · exact fun gone => stays (whole log logged le kind (.inl gone) m input b there same.symm)
    · obtain ⟨out,inside,entries,kind',named⟩ := honoured o output
      refine ⟨out,mem_without.mpr ⟨inside,fun gone => ?_⟩,entries,kind',named⟩
      exact stays (whole log logged le kind (.inr ⟨o,output,named ▸ gone⟩) m input b there same.symm)
  · intro active
    refine ⟨mem_without.mpr ⟨active.1,kept b active⟩,active.2.1,?_⟩
    rintro ⟨le,⟨log,logged,kind⟩,honoured,input⟩
    exact active.2.2 ⟨le,⟨log,(mem_without.mp logged).1,kind⟩,honoured_mono (fun b inside => (mem_without.mp inside).1) honoured,input⟩

end Removal

/-- What is stored when no compaction was interrupted. Logs list index blobs, none is older than one whose outputs it
takes, their inputs are not active, and those of logs that are to be cleaned up are gone. -/
structure Settled (st : Storage) : Prop extends WellFormed st where
  lists : ∀ le, Logged st le → ∀ m ∈ le.InputMetadata ++ le.OutputMetadata, V0IndexBlobPrefix <+: m.BlobID
  later : ∀ log ∈ st, ∀ log' ∈ st, ∀ le le', log.payload = .compactionLog le → log'.payload = .compactionLog le' →
    ∀ o ∈ le.OutputMetadata, ∀ m ∈ le'.InputMetadata, o.BlobID = m.BlobID → log.Timestamp ≤ log'.Timestamp
  inactive : ∀ le, Logged st le → ∀ m ∈ le.InputMetadata, ∀ b, Active st b → b.BlobID ≠ m.BlobID
  cleaned : ∀ b ∈ st, ∀ e, b.payload = .cleanup e → ∀ log ∈ st, log.BlobID ∈ e.BlobIDs → ∀ le, log.payload = .compactionLog le →
    ∀ m ∈ le.InputMetadata, ∀ b' ∈ st, b'.BlobID ≠ m.BlobID

/-- What a log hides. -/
def Payload.inputs : Payload → List Metadata
  | compactionLog le => le.InputMetadata
  | _ => []

/-- What is to be cleaned up. -/
def Payload.cleans : Payload → List BlobID
  | cleanup e => e.BlobIDs
  | _ => []

/-- Times in storage do not go back, and no log that hides something is named as one that is to be cleaned up. -/
def Forward (st : Storage) : Op → Option Ending → Prop
  | .EncryptAndWriteBlob payload, some (.writes hash _ timestamp) => (∀ b ∈ st, b.Timestamp ≤ timestamp) ∧
    (payload.inputs ≠ [] → ∀ b ∈ st, payload.blobPrefix ++ hash ∉ b.payload.cleans)
  | _, _ => True

instance decidableForward (st : Storage) : (op : Op) → (e : Option Ending) → Decidable (Forward st op e)
  | .EncryptAndWriteBlob payload, some (.writes hash _ timestamp) => inferInstanceAs (Decidable ((∀ b ∈ st, b.Timestamp ≤ timestamp) ∧
    (payload.inputs ≠ [] → ∀ b ∈ st, payload.blobPrefix ++ hash ∉ b.payload.cleans)))
  | .EncryptAndWriteBlob _, none | .EncryptAndWriteBlob _, some .returns | .EncryptAndWriteBlob _, some (.lists _) => isTrue trivial
  | .EncryptAndWriteBlob _, some (.visits _) | .EncryptAndWriteBlob _, some .fails => isTrue trivial
  | .EncryptAndWriteBlob _, some (.lost _) | .ListBlobs _, _ | .GetEncryptedBlob _, _ => isTrue trivial
  | .DeleteBlob _, _ | .visit _, _ => isTrue trivial

section Prefixes
variable {b : Blob} {blobID : BlobID}

theorem prefix_of_payload (b : Blob) : b.payload.blobPrefix <+: b.BlobID := List.prefix_append _ _

/-- A name has one kind. -/
theorem prefix_unique {p q : Payload} (left : p.blobPrefix <+: blobID) (right : q.blobPrefix <+: blobID) :
    p.blobPrefix = q.blobPrefix := by
  have length (p : Payload) : p.blobPrefix.length = 1 := by cases p <;> rfl
  obtain ⟨rest,rfl⟩ := left
  exact ((List.prefix_iff_eq_take.mp right).trans (by rw [length,← length p,List.take_left])).symm

theorem prefix_of_index {entries : List Info} (index : b.payload = .index entries) : V0IndexBlobPrefix <+: b.BlobID := by
  have starts := prefix_of_payload b
  rw [index] at starts
  exact starts

theorem index_of_prefix (starts : V0IndexBlobPrefix <+: b.BlobID) : ∃ entries, b.payload = .index entries :=
  isIndex_iff.mp (prefix_unique (q := .index []) (prefix_of_payload b) starts)

theorem log_not_index {le : compactionLogEntry} (log : b.payload = .compactionLog le) : ¬ V0IndexBlobPrefix <+: b.BlobID := by
  intro starts
  obtain ⟨entries,index⟩ := index_of_prefix starts
  exact nomatch log.symm.trans index

end Prefixes

namespace Settled
variable {st : Storage} {b : Blob} {blobIDs : List BlobID}

/-- What is left is settled if what is active stays so. -/
theorem of_without (settled : Settled st) (same : ∀ b, Active (st.without blobIDs) b ↔ Active st b) : Settled (st.without blobIDs) := by
  have fewer (le : compactionLogEntry) (logged : Logged (st.without blobIDs) le) : Logged st le :=
    logged.imp fun _ both => ⟨(mem_without.mp both.1).1,both.2⟩
  refine ⟨settled.toWellFormed.without blobIDs,fun le logged => settled.lists le (fewer le logged),?_,?_,?_⟩
  · exact fun log member log' member' => settled.later log (mem_without.mp member).1 log' (mem_without.mp member').1
  · exact fun le logged m input b active => settled.inactive le (fewer le logged) m input b ((same b).mp active)
  · intro b member e cleanup log logged listed le kind m input b' member'
    exact settled.cleaned b (mem_without.mp member).1 e cleanup log (mem_without.mp logged).1 listed le kind m input b' (mem_without.mp member').1

/-- The inputs of all logs up to some time. -/
def InputsUntil (st : Storage) (cutoffTime : Time) (x : BlobID) : Prop :=
  ∃ log ∈ st, ∃ le, log.payload = .compactionLog le ∧ log.Timestamp ≤ cutoffTime ∧ ∃ m ∈ le.InputMetadata, m.BlobID = x

theorem delete_inputs (settled : Settled st) {cutoffTime : Time} (inputs : ∀ x, x ∈ blobIDs ↔ InputsUntil st cutoffTime x) (b : Blob) :
    Active (st.without blobIDs) b ↔ Active st b := by
  refine active_without ?_ ?_
  · intro b active member
    obtain ⟨log,there,le,kind,_,m,input,same⟩ := (inputs _).mp member
    exact settled.inactive le ⟨log,there,kind⟩ m input b active same.symm
  · intro log there le kind lost m input b _ same
    refine (inputs _).mpr ?_
    rcases lost with name | ⟨o,output,member⟩
    · obtain ⟨log',there',le',kind',_,m',input',same'⟩ := (inputs _).mp name
      have starts := settled.lists le' ⟨log',there',kind'⟩ m' (List.mem_append_left _ input')
      exact absurd (same' ▸ starts) (log_not_index kind)
    · obtain ⟨log',there',le',kind',old,m',input',same'⟩ := (inputs _).mp member
      have order := settled.later log there log' there' le le' kind kind' o output m' input' same'.symm
      exact ⟨log,there,le,kind,le_trans order old,m,input,same.symm⟩

/-- Blobs other than indexes may go, with the inputs of the logs among them gone before. -/
theorem delete_others (settled : Settled st) (others : ∀ x ∈ blobIDs, ¬ V0IndexBlobPrefix <+: x)
    (cleaned : ∀ log ∈ st, log.BlobID ∈ blobIDs → ∀ le, log.payload = .compactionLog le → ∀ m ∈ le.InputMetadata, ∀ b ∈ st,
      b.BlobID ≠ m.BlobID) (b : Blob) : Active (st.without blobIDs) b ↔ Active st b := by
  refine active_without ?_ ?_
  · rintro b ⟨_,⟨entries,index⟩,_⟩ member
    exact others _ member (prefix_of_index index)
  · intro log there le kind lost m input b inside same
    rcases lost with name | ⟨o,output,member⟩
    · exact absurd same (cleaned log there name le kind m input b inside)
    · exact absurd (settled.lists le ⟨log,there,kind⟩ o (List.mem_append_right _ output)) (others _ member)

theorem put_index (settled : Settled st) {entries : List Info} (index : b.payload = .index entries) (fresh : Fresh st b.BlobID) :
    Settled (st.PutBlob b) := by
  have old {log : Blob} (member : log ∈ st.PutBlob b) {p : Payload} (kind : log.payload = p) (other : ∀ entries, p ≠ .index entries) :
      log ∈ st := by
    rcases mem_PutBlob.mp member with rfl | ⟨there,_⟩
    · exact absurd (kind.symm.trans index) (other entries)
    · exact there
  have unlisted {log : Blob} (there : log ∈ st) {le : compactionLogEntry} (kind : log.payload = .compactionLog le) :=
    (fresh.2 (log.BlobID,le) (mem_compactionLogs.mpr ⟨log,there,rfl,kind⟩)).1
  refine ⟨settled.toWellFormed.put fun e cleanup => (nomatch index.symm.trans cleanup),?_,?_,?_,?_⟩
  · rintro le ⟨log,member,kind⟩
    exact settled.lists le ⟨log,old member kind nofun,kind⟩
  · intro log member log' member' le le' kind kind'
    exact settled.later log (old member kind nofun) log' (old member' kind' nofun) le le' kind kind'
  · rintro le ⟨log,member,kind⟩ m input b' active
    have there := old member kind nofun
    rcases (active_put_index fresh index).mp active with rfl | active
    · exact (unlisted there kind m input).symm
    · exact settled.inactive le ⟨log,there,kind⟩ m input b' active
  · intro b' member e cleanup log logged listed le kind m input b'' member''
    have there := old logged kind nofun
    rcases mem_PutBlob.mp member'' with rfl | ⟨there'',_⟩
    · exact (unlisted there kind m input).symm
    · exact settled.cleaned b' (old member cleanup nofun) e cleanup log there listed le kind m input b'' there''

theorem put_cleanup (settled : Settled st) {e : cleanupEntry} (cleanup : b.payload = .cleanup e) (agrees : Agrees st b)
    (names : ∀ x ∈ e.BlobIDs, V0CompactionLogBlobPrefix <+: x)
    (cleaned : ∀ log ∈ st, log.BlobID ∈ e.BlobIDs → ∀ le, log.payload = .compactionLog le → ∀ m ∈ le.InputMetadata, ∀ b ∈ st,
      b.BlobID ≠ m.BlobID) : Settled (st.PutBlob b) := by
  have old {log : Blob} (member : log ∈ st.PutBlob b) {le : compactionLogEntry} (kind : log.payload = .compactionLog le) : log ∈ st := by
    rcases mem_PutBlob.mp member with rfl | ⟨there,_⟩
    · exact nomatch cleanup.symm.trans kind
    · exact there
  have formed : WellFormed (st.PutBlob b) := by
    refine settled.toWellFormed.put fun e' cleanup' => ?_
    cases cleanup.symm.trans cleanup'
    exact names
  have gone {log : Blob} (there : log ∈ st) {le : compactionLogEntry} (kind : log.payload = .compactionLog le) {m : Metadata}
      (input : m ∈ le.InputMetadata) (none : ∀ b ∈ st, b.BlobID ≠ m.BlobID) (b' : Blob) (member : b' ∈ st.PutBlob b) : b'.BlobID ≠ m.BlobID := by
    rcases mem_PutBlob.mp member with rfl | ⟨there',_⟩
    · intro same
      have starts := settled.lists le ⟨log,there,kind⟩ m (List.mem_append_left _ input)
      obtain ⟨entries,index⟩ := index_of_prefix (same ▸ starts)
      exact nomatch cleanup.symm.trans index
    · exact none b' there'
  refine ⟨formed,?_,?_,?_,?_⟩
  · rintro le ⟨log,member,kind⟩
    exact settled.lists le ⟨log,old member kind,kind⟩
  · intro log member log' member' le le' kind kind'
    exact settled.later log (old member kind) log' (old member' kind') le le' kind kind'
  · rintro le ⟨log,member,kind⟩ m input b' active
    exact settled.inactive le ⟨log,old member kind,kind⟩ m input b' ((active_put_cleanup agrees cleanup).mp active)
  · intro b' member e' cleanup' log logged listed le kind m input
    have there := old logged kind
    refine gone there kind input ?_
    rcases mem_PutBlob.mp member with rfl | ⟨there',_⟩
    · cases cleanup.symm.trans cleanup'
      exact cleaned log there listed le kind m input
    · exact settled.cleaned b' there' e' cleanup' log there listed le kind m input

/-- The log of a compaction whose inputs were active and whose outputs are new. -/
theorem put_log (settled : Settled st) {le : compactionLogEntry} (log : b.payload = .compactionLog le) (agrees : Agrees st b)
    (honoured : Honoured st le) (inputs : ∀ m ∈ le.InputMetadata, ∃ b, Active st b ∧ b.BlobID = m.BlobID)
    (new : ∀ o ∈ le.OutputMetadata, (∀ m ∈ le.InputMetadata, m.BlobID ≠ o.BlobID) ∧
      ∀ le', Logged st le' → ∀ m ∈ le'.InputMetadata, m.BlobID ≠ o.BlobID)
    (latest : ∀ b' ∈ st, b'.Timestamp ≤ b.Timestamp)
    (unnamed : le.InputMetadata ≠ [] → ∀ b' ∈ st, ∀ e, b'.payload = .cleanup e → b.BlobID ∉ e.BlobIDs) :
    Settled (st.PutBlob b) := by
  have indexes : ∀ m ∈ le.InputMetadata ++ le.OutputMetadata, V0IndexBlobPrefix <+: m.BlobID := by
    intro m member
    have there : ∃ b : Blob, (∃ entries, b.payload = .index entries) ∧ b.BlobID = m.BlobID := by
      rcases List.mem_append.mp member with input | output
      · obtain ⟨b',active,same⟩ := inputs m input
        exact ⟨b',active.2.1,same⟩
      · obtain ⟨b',_,entries,index,same⟩ := honoured m output
        exact ⟨b',⟨entries,index⟩,same⟩
    obtain ⟨b',⟨entries,index⟩,same⟩ := there
    exact same ▸ prefix_of_index index
  have either {log' : Blob} (member : log' ∈ st.PutBlob b) {le' : compactionLogEntry} (kind : log'.payload = .compactionLog le') :
      (log' = b ∧ le' = le) ∨ log' ∈ st := by
    rcases mem_PutBlob.mp member with rfl | ⟨there,_⟩
    · exact .inl ⟨rfl,Payload.compactionLog.inj (kind.symm.trans log)⟩
    · exact .inr there
  refine ⟨settled.toWellFormed.put fun e cleanup => (nomatch log.symm.trans cleanup),?_,?_,?_,?_⟩
  · rintro le' ⟨log',member,kind⟩
    rcases either member kind with ⟨rfl,rfl⟩ | there
    · exact indexes
    · exact settled.lists le' ⟨log',there,kind⟩
  · intro log1 member1 log2 member2 le1 le2 kind1 kind2 o output m input same
    rcases either member1 kind1 with ⟨rfl,rfl⟩ | there1
    · rcases either member2 kind2 with ⟨rfl,rfl⟩ | there2
      · exact le_rfl
      · exact absurd same.symm ((new o output).2 le2 ⟨log2,there2,kind2⟩ m input)
    · rcases either member2 kind2 with ⟨rfl,rfl⟩ | there2
      · exact latest log1 there1
      · exact settled.later log1 there1 log2 there2 le1 le2 kind1 kind2 o output m input same
  · rintro le' ⟨log',member,kind⟩ m input b' active
    obtain ⟨before,free⟩ := (active_put_log agrees log).mp active
    rcases either member kind with ⟨rfl,rfl⟩ | there
    · exact fun same => free ⟨honoured,m,input,same.symm⟩
    · exact settled.inactive le' ⟨log',there,kind⟩ m input b' before
  · intro b' member e cleanup log' logged listed le' kind m input b'' member'' same
    have there' : b' ∈ st := by
      rcases mem_PutBlob.mp member with rfl | ⟨there',_⟩
      · exact nomatch log.symm.trans cleanup
      · exact there'
    rcases either logged kind with ⟨rfl,rfl⟩ | there
    · exact unnamed (List.ne_nil_of_mem input) b' there' e cleanup listed
    · rcases mem_PutBlob.mp member'' with rfl | ⟨there'',_⟩
      · have starts := settled.lists le' ⟨log',there,kind⟩ m (List.mem_append_left _ input)
        exact log_not_index log (same ▸ starts)
      · exact settled.cleaned b' there' e cleanup log' there listed le' kind m input b'' there'' same

end Settled

section Programs
variable {α β : Type} {st : Storage}

abbrev Orderly (st : Storage) (op : Op) (e : Option Ending) : Prop := Unambiguous st op e ∧ Forward st op e

/-- A condition holds where a program answers. -/
abbrev Ends (p : Call α) (post : Storage → α → Prop) (st : Storage) : Prop :=
  p.Pre Storage.perform Orderly (Query.Upon post (fun _ _ => True) fun _ => True) st

theorem ends_fail {post : Storage → α → Prop} : Ends (.fail () : Call α) post st := trivial

theorem ends_answer {post : Storage → α → Prop} {a : α} (holds : post st a) : Ends (.answer a) post st := holds

theorem Ends.imp {p : Call α} {post post' : Storage → α → Prop} (ends : Ends p post st) (more : ∀ st' a, post st' a → post' st' a) :
    Ends p post' st :=
  ends.mono fun st' _ upon => upon.imp (more st') (fun _ holds => holds) fun holds => holds

theorem Reads.ends {p : Call α} {post : α → Prop} (reads : Reads Orderly p post st) : Ends p (fun st' a => st' = st ∧ post a) st :=
  reads.mono fun _ _ upon => upon.imp (fun _ both => both) (fun _ _ => trivial) fun _ => trivial

theorem ends_put {p : Payload} {next : Reply → Call α} {post : Storage → α → Prop}
    (failed : ∀ reply, (∀ bm, reply ≠ .written bm) → next reply = .fail ())
    (put : ∀ b : Blob, b.payload = p → Orderly st (.EncryptAndWriteBlob p) (some (.writes b.hash b.Length b.Timestamp)) →
      Ends (next (.written b.metadata)) post (st.PutBlob b)) : Ends (.ask (.EncryptAndWriteBlob p) next) post st := by
  refine ⟨fun _ => trivial,fun e may => ?_⟩
  cases e with
  | writes hash length timestamp => exact put ⟨hash,length,timestamp,p⟩ rfl may
  | _ =>
    have refused := failed .failed nofun
    simp only [Storage.perform,refused]
    exact ends_fail

theorem ends_deleteBlobs (blobIDs : List BlobID) (st : Storage) :
    Ends (deleteBlobs blobIDs) (fun st' _ => st' = st.without blobIDs) st := by
  induction blobIDs generalizing st with
  | nil =>
    refine ends_answer ?_
    simp [Storage.without]
  | cons blobID blobIDs ih =>
    refine ⟨fun _ => trivial,fun e _ => ?_⟩
    cases e with
    | returns =>
      refine (ih (st.DeleteBlob blobID)).imp fun st' _ same => ?_
      rw [same,without_cons]
    | _ => exact ends_fail

theorem ends_deleteBlobsFromStorageAndCache (blobIDs : List BlobID) (st : Storage) :
    Ends (deleteBlobsFromStorageAndCache blobIDs) (fun st' _ => st' = st.without blobIDs) st := by
  refine ⟨fun _ => trivial,fun e _ => ?_⟩
  cases e with
  | visits order =>
    by_cases perm : order.Perm blobIDs
    · simp only [Storage.perform,if_pos perm]
      refine (ends_deleteBlobs order st).imp fun st' _ same => ?_
      rw [same,without_congr fun x => perm.mem_iff]
    · simp only [Storage.perform,if_neg perm]
      exact ends_fail
  | _ => exact ends_fail

/-- The storage is settled again, with the same active blobs. -/
structure Undisturbed (st st' : Storage) : Prop where
  settled : Settled st'
  active : ∀ b, Active st' b ↔ Active st b

theorem Undisturbed.trans {st' st'' : Storage} (first : Undisturbed st st') (second : Undisturbed st' st'') : Undisturbed st st'' :=
  ⟨second.settled,fun b => (second.active b).trans (first.active b)⟩

theorem agrees_of_orderly {b : Blob} {p : Payload} {e : Ending} (kind : b.payload = p) (named : e.hash = some b.hash)
    (other : ∀ entries, p ≠ .index entries) (orderly : Orderly st (.EncryptAndWriteBlob p) (some e)) : Agrees st b := by
  have unambiguous := orderly.1
  simp only [Unambiguous,named] at unambiguous
  rw [Agrees,Blob.BlobID,kind]
  cases p with
  | index entries => exact absurd rfl (other entries)
  | _ => exact unambiguous

theorem ends_delayCleanupBlobs (settled : Settled st) (blobIDs : List BlobID) (time : Time)
    (names : ∀ x ∈ blobIDs, V0CompactionLogBlobPrefix <+: x)
    (cleaned : ∀ log ∈ st, log.BlobID ∈ blobIDs → ∀ le, log.payload = .compactionLog le → ∀ m ∈ le.InputMetadata, ∀ b ∈ st,
      b.BlobID ≠ m.BlobID) : Ends (delayCleanupBlobs blobIDs time) (fun st' _ => Undisturbed st st') st := by
  unfold delayCleanupBlobs
  split
  next => exact ends_answer ⟨settled,fun _ => Iff.rfl⟩
  next =>
    refine ends_put (fun reply other => ?_) fun b kind orderly => ?_
    · cases reply with
      | written bm => exact absurd rfl (other bm)
      | _ => rfl
    · have agrees := agrees_of_orderly kind rfl nofun orderly
      exact ends_answer ⟨settled.put_cleanup kind agrees names cleaned,fun b' => active_put_cleanup agrees kind⟩

theorem ends_deleteOldBlobs (settled : Settled st) (latestBlob : Metadata) (settle : Duration) :
    Ends (deleteOldBlobs latestBlob settle) (fun st' _ => Undisturbed st st') st := by
  refine Query.Pre.andThen (reads_ListAllBlobs _).ends ?_
  rintro st1 all ⟨rfl,listed⟩
  refine Query.Pre.andThen (reads_getCompactionLogEntries _).ends ?_
  rintro st1 entries ⟨rfl,read⟩
  have old (log : Blob) (there : log ∈ st1) (le : compactionLogEntry) (kind : log.payload = .compactionLog le) :
      log.metadata ∈ blobsOlderThan all (latestBlob.Timestamp - settle) ↔ log.Timestamp ≤ latestBlob.Timestamp - settle := by
    have inside : log.metadata ∈ all := listed.mem_iff.mpr (mem_listing.mpr ⟨log,there,by rw [kind]; rfl,rfl⟩)
    rw [blobsOlderThan,List.mem_filter,and_iff_right inside]
    simp [Blob.metadata]
  have inputs (x : BlobID) : x ∈ findIndexBlobsToDelete latestBlob.Timestamp entries settle ↔
      Settled.InputsUntil st1 (latestBlob.Timestamp - settle) x := by
    simp only [findIndexBlobsToDelete,List.mem_dedup,List.mem_flatMap,List.mem_filter,List.mem_map]
    constructor
    · rintro ⟨cl,⟨member,_⟩,m,input,same⟩
      obtain ⟨among,found⟩ := (read cl).mp member
      obtain ⟨log,there,kind⟩ := mem_listing.mp (listed.mem_iff.mp (List.mem_filter.mp among).1)
      obtain ⟨log',there',own,kind'⟩ := (GetEncryptedBlob_eq settled.named).mp found
      obtain rfl : log' = log := List.inj_on_of_nodup_map settled.named there' there (own.trans (congrArg Metadata.BlobID kind.2).symm)
      exact ⟨log',there,cl.2,kind',(old log' there cl.2 kind').mp (kind.2 ▸ among),m,input,same⟩
    · rintro ⟨log,there,le,kind,early,m,input,same⟩
      have among := (old log there le kind).mpr early
      have found := (GetEncryptedBlob_eq settled.named).mpr ⟨log,there,rfl,kind⟩
      refine ⟨(log.metadata,le),⟨(read _).mpr ⟨among,found⟩,?_⟩,m,input,same⟩
      have recent : ¬latestBlob.Timestamp - log.Timestamp < settle := not_lt.mpr (le_sub_comm.mp early)
      exact Bool.not_eq_true' _ ▸ decide_eq_false recent
  refine Query.Pre.andThen (ends_deleteBlobsFromStorageAndCache _ _) ?_
  rintro st2 _ rfl
  have same := settled.delete_inputs inputs
  refine (ends_delayCleanupBlobs (settled.of_without same) _ _ ?_ ?_).imp fun st3 _ undisturbed =>
    (Undisturbed.mk (settled.of_without same) same).trans undisturbed
  · intro x member
    obtain ⟨bm,among,rfl⟩ := List.mem_map.mp member
    exact prefix_of_listing (listed.mem_iff.mp (List.mem_filter.mp among).1)
  · intro log logged member le kind m input b stored same'
    obtain ⟨bm,among,named⟩ := List.mem_map.mp member
    obtain ⟨log',there',_,rfl⟩ := mem_listing.mp (listed.mem_iff.mp (List.mem_filter.mp among).1)
    have there := (mem_without.mp logged).1
    obtain rfl : log' = log := List.inj_on_of_nodup_map settled.named there' there named
    have early := (old log' there le kind).mp among
    exact (mem_without.mp stored).2 ((inputs _).mpr ⟨log',there,le,kind,early,m,input,same'.symm⟩)

theorem ends_cleanup (settled : Settled st) (settle : Duration) : Ends (cleanup settle) (fun st' _ => Undisturbed st st') st := by
  refine Query.Pre.andThen (reads_ListAllBlobs _).ends ?_
  rintro st1 all ⟨rfl,listed⟩
  refine Query.Pre.andThen (reads_getCleanupEntries _).ends ?_
  rintro st1 entries ⟨rfl,read⟩
  refine Query.Pre.andThen (ends_deleteBlobsFromStorageAndCache _ _) ?_
  rintro st2 _ rfl
  have logs (b : Blob) : Active (st1.without (findBlobsToDelete (latestTime all) entries settle).1) b ↔ Active st1 b := by
    refine settled.delete_others ?_ ?_ b
    · intro x member starts
      obtain ⟨e,old,inside⟩ := List.mem_flatMap.mp member
      obtain ⟨b,there,_,kind⟩ := (GetEncryptedBlob_eq settled.named).mp (read e (List.mem_filter.mp old).1).2
      exact nomatch prefix_unique (p := .compactionLog ⟨[],[]⟩) (q := .index []) (settled.cleanups b there e.2 kind x inside) starts
    · intro log there member
      obtain ⟨e,old,inside⟩ := List.mem_flatMap.mp member
      obtain ⟨b,there',_,kind⟩ := (GetEncryptedBlob_eq settled.named).mp (read e (List.mem_filter.mp old).1).2
      exact settled.cleaned b there' e.2 kind log there inside
  have settled' := settled.of_without logs
  refine (ends_deleteBlobsFromStorageAndCache _ _).imp ?_
  rintro st3 _ rfl
  have names (x : BlobID) (member : x ∈ (findBlobsToDelete (latestTime all) entries settle).2) : V0CleanupBlobPrefix <+: x := by
    obtain ⟨e,old,rfl⟩ := List.mem_map.mp member
    obtain ⟨cb,inside,same⟩ := (read e (List.mem_filter.mp old).1).1
    exact same ▸ prefix_of_listing (listed.mem_iff.mp inside)
  have cleanups (b : Blob) : Active ((st1.without (findBlobsToDelete (latestTime all) entries settle).1).without
      (findBlobsToDelete (latestTime all) entries settle).2) b ↔ Active (st1.without (findBlobsToDelete (latestTime all) entries settle).1) b := by
    refine settled'.delete_others ?_ ?_ b
    · exact fun x member starts => nomatch prefix_unique (p := .cleanup ⟨[],0⟩) (q := .index []) (names x member) starts
    · intro log _ member le kind
      have own := prefix_of_payload log
      rw [kind] at own
      exact nomatch prefix_unique (p := .cleanup ⟨[],0⟩) (q := .compactionLog le) (names _ member) own
  exact (Undisturbed.mk settled' logs).trans ⟨settled'.of_without cleanups,cleanups⟩

end Programs

end Vbe.IndexBlob.ManagerV0
