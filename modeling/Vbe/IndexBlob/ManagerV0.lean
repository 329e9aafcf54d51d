import Vbe.IndexBlob.Compaction
import Vbe.Library.Queries

/-! Compaction as it was before epochs: logs in storage say which index blobs were compacted to which, and
their inputs are deleted later. Blobs hold what they decode to. -/
namespace Vbe.IndexBlob.ManagerV0
open Vbe.Index Vbe.Library

def V0CompactionLogBlobPrefix : BlobID := [109]

def V0CleanupBlobPrefix : BlobID := [108]

abbrev Time := Int

abbrev Duration := Int

def defaultEventualConsistencySettleTime : Duration := 3600 * 1000000000

def verySmallContentFraction : Int := 20

/-- `time.Time{}`, in nanoseconds. -/
def zeroTime : Time := -62135596800000000000

structure Metadata where
  BlobID : BlobID
  Length : Int
  Timestamp : Time
deriving DecidableEq

structure compactionLogEntry where
  InputMetadata : List Metadata
  OutputMetadata : List Metadata
deriving DecidableEq

structure cleanupEntry where
  BlobIDs : List BlobID
  CleanupScheduleTime : Time
deriving DecidableEq

inductive Payload
  | index (entries : List Info)
  | compactionLog (e : compactionLogEntry)
  | cleanup (e : cleanupEntry)
deriving DecidableEq

def Payload.blobPrefix : Payload → BlobID
  | index _ => V0IndexBlobPrefix
  | compactionLog _ => V0CompactionLogBlobPrefix
  | cleanup _ => V0CleanupBlobPrefix

/-- A blob is named by its kind and a hash. -/
structure Blob where
  hash : BlobID
  Length : Int
  Timestamp : Time
  payload : Payload
deriving DecidableEq

def Blob.BlobID (b : Blob) : BlobID := b.payload.blobPrefix ++ b.hash

def Blob.metadata (b : Blob) : Metadata := ⟨b.BlobID,b.Length,b.Timestamp⟩

abbrev Storage := List Blob

inductive Op
  | ListBlobs (blobPrefix : BlobID)
  | GetEncryptedBlob (blobID : BlobID)
  | EncryptAndWriteBlob (payload : Payload)
  | DeleteBlob (blobID : BlobID)
  /-- The keys of a map are visited. -/
  | visit (blobIDs : List BlobID)
deriving DecidableEq

inductive Reply
  | listed (blobs : List Metadata)
  | payload (p : Payload)
  | written (bm : Metadata)
  | visited (blobIDs : List BlobID)
  | done
  | notFound
  | failed
deriving DecidableEq

/-- How a call ends. One that fails may have done its work all the same. -/
inductive Ending
  | returns
  | lists (blobs : List Metadata)
  | visits (blobIDs : List BlobID)
  | writes (hash : BlobID) (Length : Int) (Timestamp : Time)
  | fails
  | lost (e : Ending)
deriving DecidableEq

namespace Storage

def listing (st : Storage) (p : BlobID) : List Metadata := (st.filter fun b => b.payload.blobPrefix = p).map Blob.metadata

def GetEncryptedBlob (st : Storage) (blobID : BlobID) : Option Payload := (st.find? fun b => b.BlobID = blobID).map Blob.payload

def DeleteBlob (st : Storage) (blobID : BlobID) : Storage := st.filter fun b => b.BlobID ≠ blobID

def PutBlob (st : Storage) (b : Blob) : Storage := b :: st.DeleteBlob b.BlobID

def perform (st : Storage) (op : Op) : Ending → Storage × Reply
  | .fails => (st,.failed)
  | .lost e => ((st.perform op e).1,.failed)
  | .returns =>
    match op with
    | .GetEncryptedBlob blobID => (st,match st.GetEncryptedBlob blobID with | some p => .payload p | none => .notFound)
    | .DeleteBlob blobID => (st.DeleteBlob blobID,.done)
    | _ => (st,.failed)
  | .lists blobs =>
    match op with
    | .ListBlobs p => (st,if blobs.Perm (st.listing p) then .listed blobs else .failed)
    | _ => (st,.failed)
  | .visits blobIDs =>
    match op with
    | .visit keys => (st,if blobIDs.Perm keys then .visited blobIDs else .failed)
    | _ => (st,.failed)
  | .writes hash length timestamp =>
    match op with
    | .EncryptAndWriteBlob payload =>
      let b : Blob := ⟨hash,length,timestamp,payload⟩
      (st.PutBlob b,.written b.metadata)
    | _ => (st,.failed)

end Storage

structure CompactOptions extends IndexBlob.CompactOptions where
  MaxSmallBlobs : Nat
  AllIndexes : Bool
  DisableEventualConsistencySafety : Bool

def CompactOptions.maxEventualConsistencySettleTime (co : CompactOptions) : Duration :=
  if co.DisableEventualConsistencySafety then 0 else defaultEventualConsistencySettleTime

/-- The parameters of the format, and what can be encoded in it. -/
structure Formatting where
  MaxPackSize : Int
  encodes : Builder → Bool

abbrev Call (α : Type) := Query Op Reply Unit α

def ListAllBlobs (blobPrefix : BlobID) : Call (List Metadata) :=
  .ask (.ListBlobs blobPrefix) fun reply =>
    match reply with
    | .listed blobs => .answer blobs
    | _ => .fail ()

/-- A blob that is gone is left out. -/
def getCompactionLogEntries : List Metadata → Call (List (Metadata × compactionLogEntry))
  | [] => .answer []
  | cb :: blobs => .ask (.GetEncryptedBlob cb.BlobID) fun reply =>
    match reply with
    | .notFound => getCompactionLogEntries blobs
    | .payload (.compactionLog le) => do
      let results ← getCompactionLogEntries blobs
      .answer ((cb,le) :: results)
    | _ => .fail ()

def getCleanupEntries : List Metadata → Call (List (BlobID × cleanupEntry))
  | [] => .answer []
  | cb :: blobs => .ask (.GetEncryptedBlob cb.BlobID) fun reply =>
    match reply with
    | .notFound => getCleanupEntries blobs
    | .payload (.cleanup le) => do
      let results ← getCleanupEntries blobs
      .answer ((cb.BlobID,le) :: results)
    | _ => .fail ()

def hasBlob (bimap : List Metadata) (blobID : BlobID) : Bool := bimap.any fun bm => bm.BlobID = blobID

/-- Only logs all of whose outputs are there count. -/
def removeCompactedIndexes (bimap : List Metadata) (compactionLogs : List compactionLogEntry) : List Metadata :=
  let validCompactionLogs := compactionLogs.filter fun cl => cl.OutputMetadata.all fun o => hasBlob bimap o.BlobID
  bimap.filter fun bm => !validCompactionLogs.any fun cl => hasBlob cl.InputMetadata bm.BlobID

def ListActiveIndexBlobs : Call (List Metadata) := do
  let compactionLogMetadata ← ListAllBlobs V0CompactionLogBlobPrefix
  let storageIndexBlobs ← ListAllBlobs V0IndexBlobPrefix
  let compactionLogs ← getCompactionLogEntries compactionLogMetadata
  .answer (removeCompactedIndexes storageIndexBlobs (compactionLogs.map Prod.snd))

def getBlobsToCompact (indexBlobs : List Metadata) (opt : CompactOptions) (mp : Formatting) : List Metadata :=
  let nonCompactedBlobs := indexBlobs.filter fun b => !(b.Length > mp.MaxPackSize && !opt.AllIndexes)
  let verySmallBlobs := nonCompactedBlobs.filter fun b => b.Length < mp.MaxPackSize.tdiv verySmallContentFraction
  let mediumSizedBlobCount := nonCompactedBlobs.length - verySmallBlobs.length
  if nonCompactedBlobs.length < opt.MaxSmallBlobs then []
  else if verySmallBlobs.length > nonCompactedBlobs.length / 2 ∧ mediumSizedBlobCount + 1 < opt.MaxSmallBlobs then verySmallBlobs
  else nonCompactedBlobs

/-- The entries of all inputs. -/
def addIndexBlobsToBuilder : Builder → List Metadata → Call Builder
  | bld, [] => .answer bld
  | bld, indexBlob :: indexBlobs => .ask (.GetEncryptedBlob indexBlob.BlobID) fun reply =>
    match reply with
    | .payload (.index entries) => addIndexBlobsToBuilder (bld.addAll entries) indexBlobs
    | _ => .fail ()

def WriteIndexBlobs : List Builder → Call (List Metadata)
  | [] => .answer []
  | shard :: dataShards => .ask (.EncryptAndWriteBlob (.index shard.sortedContents)) fun reply =>
    match reply with
    | .written bm => do
      let result ← WriteIndexBlobs dataShards
      .answer (bm :: result)
    | _ => .fail ()

/-- Stops at the first that cannot be deleted. -/
def deleteBlobs : List BlobID → Call Unit
  | [] => .answer ()
  | blobID :: blobIDs => .ask (.DeleteBlob blobID) fun reply =>
    match reply with
    | .done => deleteBlobs blobIDs
    | _ => .fail ()

def deleteBlobsFromStorageAndCache (blobIDs : List BlobID) : Call Unit :=
  .ask (.visit blobIDs) fun reply =>
    match reply with
    | .visited blobIDs => deleteBlobs blobIDs
    | _ => .fail ()

def blobsOlderThan (m : List Metadata) (cutoffTime : Time) : List Metadata := m.filter fun bm => !(bm.Timestamp > cutoffTime)

def findIndexBlobsToDelete (latestServerBlobTime : Time) (entries : List (Metadata × compactionLogEntry)) (settle : Duration) :
    List BlobID :=
  ((entries.filter fun cl => !(latestServerBlobTime - cl.1.Timestamp < settle)).flatMap fun cl =>
    cl.2.InputMetadata.map Metadata.BlobID).dedup

def delayCleanupBlobs (blobIDs : List BlobID) (cleanupScheduleTime : Time) : Call Unit :=
  if blobIDs = [] then .answer ()
  else .ask (.EncryptAndWriteBlob (.cleanup ⟨blobIDs,cleanupScheduleTime⟩)) fun reply =>
    match reply with
    | .written _ => .answer ()
    | _ => .fail ()

/-- The inputs of all logs that are old enough are deleted, whatever became of the outputs. -/
def deleteOldBlobs (latestBlob : Metadata) (settle : Duration) : Call Unit := do
  let allCompactionLogBlobs ← ListAllBlobs V0CompactionLogBlobPrefix
  let compactionBlobs := blobsOlderThan allCompactionLogBlobs (latestBlob.Timestamp - settle)
  let compactionBlobEntries ← getCompactionLogEntries compactionBlobs
  deleteBlobsFromStorageAndCache (findIndexBlobsToDelete latestBlob.Timestamp compactionBlobEntries settle)
  delayCleanupBlobs (compactionBlobs.map Metadata.BlobID) latestBlob.Timestamp

def registerCompaction (inputs outputs : List Metadata) (settle : Duration) : Call Unit :=
  .ask (.EncryptAndWriteBlob (.compactionLog ⟨inputs,outputs⟩)) fun reply =>
    match reply with
    | .written compactionLogBlobMetadata => deleteOldBlobs compactionLogBlobMetadata settle
    | _ => .fail ()

def compactIndexBlobs (mp : Option Formatting) (indexBlobs : List Metadata) (opt : CompactOptions) : Call Unit :=
  if nothingToCompact (indexBlobs.map Metadata.BlobID) opt.toCompactOptions then .answer ()
  else
    match mp with
    | none => .fail ()
    | some mp => do
      let bld ← addIndexBlobsToBuilder Builder.empty indexBlobs
      let bld := dropContentsFromBuilder bld opt.toCompactOptions
      match if mp.encodes bld then bld.shard DefaultIndexShardSize else none with
      | none => .fail ()
      | some dataShards => do
        let outputs ← WriteIndexBlobs dataShards
        registerCompaction indexBlobs outputs opt.maxEventualConsistencySettleTime

def findBlobsToDelete (latestServerBlobTime : Time) (entries : List (BlobID × cleanupEntry)) (settle : Duration) :
    List BlobID × List BlobID :=
  let old := entries.filter fun e => latestServerBlobTime - e.2.CleanupScheduleTime ≥ settle
  (old.flatMap fun e => e.2.BlobIDs,old.map Prod.fst)

def latestTime (blobs : List Metadata) : Time :=
  blobs.foldl (fun latest cb => if cb.Timestamp > latest then cb.Timestamp else latest) zeroTime

def cleanup (settle : Duration) : Call Unit := do
  let allCleanupBlobs ← ListAllBlobs V0CleanupBlobPrefix
  let cleanupEntries ← getCleanupEntries allCleanupBlobs
  let toDelete := findBlobsToDelete (latestTime allCleanupBlobs) cleanupEntries settle
  deleteBlobsFromStorageAndCache toDelete.1
  deleteBlobsFromStorageAndCache toDelete.2

/-- The parameters of the format are asked for twice. -/
def Compact (mp mp' : Option Formatting) (opt : CompactOptions) : Call Unit := do
  let indexBlobs ← ListActiveIndexBlobs
  match mp with
  | none => .fail ()
  | some mp => do
    compactIndexBlobs mp' (getBlobsToCompact indexBlobs opt mp) opt
    cleanup opt.maxEventualConsistencySettleTime

/-- What `maintenance.DropDeletedContents` compacts with. -/
def DropDeletedContents (dropDeletedBefore : Option Time) (DisableEventualConsistencySafety : Bool) : CompactOptions :=
  ⟨⟨dropDeletedBefore,[]⟩,0,true,DisableEventualConsistencySafety⟩

end Vbe.IndexBlob.ManagerV0
