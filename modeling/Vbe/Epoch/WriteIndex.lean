import Vbe.Epoch.EpochManager
import Vbe.Library.Queries
import Vbe.Objects.Json

/-! Writing of index blobs under one epoch. The clock, the epochs that other clients start and the order in which maps are
visited are up to the surroundings. -/
namespace Vbe.Epoch
open Vbe.Index (Bytes BlobID)
open Vbe.IndexBlob.ManagerV0 (Metadata Duration Time)
open Vbe.Library

def UncompactedIndexBlobPrefix : BlobID := [120,110]

def UncompactedEpochBlobPrefix (epoch : Int) : BlobID := UncompactedIndexBlobPrefix ++ Objects.integer epoch ++ [95]

inductive Op
  | GetParameters
  | committedState (ensureMinTime : Duration)
  | Invalidate
  | timeFunc
  | PutBlob (blobID : BlobID) (data : Bytes)
  | DeleteBlob (blobID : BlobID)
  /-- The keys of a map are visited. -/
  | visit (blobIDs : List BlobID)

inductive Reply
  | parameters (p : Parameters)
  | state (cs : CurrentSnapshot)
  | time (t : Time)
  | written (bm : Metadata)
  | visited (blobIDs : List BlobID)
  | done
  | failed

/-- How a call ends. Committed state that is known but no longer valid is read anew. -/
inductive Ending
  | parameters (p : Parameters)
  | state (now : Time) (refreshed : CurrentSnapshot)
  | time (t : Time)
  | writes (Timestamp : Time)
  | visits (blobIDs : List BlobID)
  | returns
  | fails

structure World where
  blobs : BlobID → Option Bytes
  lastKnownState : Option CurrentSnapshot
  /-- The last write epoch that has been read since the last blob was put. -/
  epochSince : Option Int

def act (w : World) : Op → Ending → World × Reply
  | .GetParameters, .parameters p => (w,.parameters p)
  | .committedState ensureMinTime, .state now refreshed =>
    match w.lastKnownState with
    | some cs =>
      if now + ensureMinTime > cs.ValidUntil then
        ({ w with lastKnownState := some refreshed,epochSince := some refreshed.WriteEpoch },.state refreshed)
      else (w,.state cs)
    | none => ({ w with lastKnownState := some refreshed,epochSince := some refreshed.WriteEpoch },.state refreshed)
  | .Invalidate, .returns => ({ w with lastKnownState := none },.done)
  | .timeFunc, .time t => (w,.time t)
  | .PutBlob blobID data, .writes timestamp =>
    ({ w with blobs := Function.update w.blobs blobID (some data),epochSince := none },
      .written ⟨blobID,data.length,timestamp⟩)
  | .DeleteBlob blobID, .returns => ({ w with blobs := Function.update w.blobs blobID none },.done)
  | .visit keys, .visits blobIDs => (w,if blobIDs.Perm keys then .visited blobIDs else .failed)
  | _, _ => (w,.failed)

inductive WriteIndexError
  /-- The loop had not ended. -/
  | unfinished
  | failed
  | verySlowIndexWrite
deriving DecidableEq

abbrev Call (α : Type) := Query Op Reply WriteIndexError α

abbrev Shards := Keyed (Prod.fst : BlobID × Bytes → BlobID)

abbrev Written := Keyed Metadata.BlobID

def Written.keys (written : Written) : List BlobID := written.values.map Metadata.BlobID

def deleteBlobs : List BlobID → Call Unit
  | [] => .answer ()
  | blobID :: blobIDs => .ask (.DeleteBlob blobID) fun reply =>
    match reply with
    | .done => deleteBlobs blobIDs
    | _ => .fail .failed

def deletePartiallyWrittenShards (blobs : Written) : Call Unit :=
  .ask (.visit blobs.keys) fun reply =>
    match reply with
    | .visited blobIDs => deleteBlobs blobIDs
    | _ => .fail .failed

/-- The loop over the shards. Its result tells whether it has to be tried again. -/
def writeShards (cs : CurrentSnapshot) : List (BlobID × Bytes) → Written → Call (Written × Bool)
  | [], written => .answer (written,false)
  | (unprefixedBlobID,data) :: dataShards, written =>
    let blobID := UncompactedEpochBlobPrefix cs.WriteEpoch ++ unprefixedBlobID
    if (written.get? blobID).isSome then writeShards cs dataShards written
    else .ask .timeFunc fun reply =>
      match reply with
      | .time now =>
        if ¬now < cs.ValidUntil then .answer (written,true)
        else .ask (.PutBlob blobID data) fun reply =>
          match reply with
          | .written bm => writeShards cs dataShards (written.set bm)
          | _ => .fail .failed
      | _ => .fail .failed

def writeIndexShards (dataShards : Shards) (written : Written) (cs : CurrentSnapshot) : Call (Written × Bool) :=
  .ask (.visit (dataShards.values.map Prod.fst)) fun reply =>
    match reply with
    | .visited blobIDs => writeShards cs (blobIDs.filterMap dataShards.get?) written
    | _ => .fail .failed

/-- What was written for another epoch is deleted. -/
def forEpoch (written : Written) (writtenForEpoch : Int) (cs : CurrentSnapshot) : Call Written :=
  if cs.WriteEpoch ≠ writtenForEpoch then do
    deletePartiallyWrittenShards written
    .answer Keyed.empty
  else .answer written

/-- The loop of `WriteIndex`, over at most so many attempts. -/
def writeAttempts (dataShards : Shards) : Nat → Written → Int → Call (Written × Int)
  | 0, _, _ => .fail .unfinished
  | attempts + 1, written, writtenForEpoch => .ask .GetParameters fun reply =>
    match reply with
    | .parameters p => .ask (.committedState ((3 * p.EpochRefreshFrequency).tdiv 4)) fun reply =>
      match reply with
      | .state cs => do
        let written ← forEpoch written writtenForEpoch cs
        let (written,again) ← writeIndexShards dataShards written cs
        if again then writeAttempts dataShards attempts written cs.WriteEpoch
        else .ask .Invalidate fun _ => .answer (written,cs.WriteEpoch)
      | _ => .fail .failed
    | _ => .fail .failed

/-- Failures of a program are logged only. -/
def logged {α : Type} : Call α → Call Unit
  | .answer _ => .answer ()
  | .fail _ => .answer ()
  | .ask op next => .ask op fun reply => logged (next reply)

def finishWrite (written : Written) (writtenForEpoch : Int) : Call (List Metadata) :=
  .ask (.committedState 0) fun reply =>
    match reply with
    | .state cs =>
      if cs.WriteEpoch ≥ writtenForEpoch + 2 then do
        logged (deletePartiallyWrittenShards written)
        .fail .verySlowIndexWrite
      else .ask (.visit written.keys) fun reply =>
        match reply with
        | .visited blobIDs => .answer (blobIDs.filterMap written.get?)
        | _ => .fail .failed
    | _ => .fail .failed

def WriteIndex (attempts : Nat) (dataShards : Shards) : Call (List Metadata) := do
  let (written,writtenForEpoch) ← writeAttempts dataShards attempts Keyed.empty (-1)
  finishWrite written writtenForEpoch

end Vbe.Epoch
