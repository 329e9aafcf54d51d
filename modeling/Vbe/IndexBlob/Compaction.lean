import Vbe.Index.Open
import Vbe.Index.Shards

/-! The compaction of index blobs: the entries of the inputs are collected in a builder,
which is written out in shards. What the storage and the rest of the surroundings answer
is given; what was put into storage is returned with the error. -/
namespace Vbe.IndexBlob
open Vbe.Library.Bytes Vbe.Index

def DefaultIndexShardSize : Nat := 16000000

def V0IndexBlobPrefix : BlobID := [110]

/-- `none` stands for an error. -/
structure Surroundings where
  /-- Reads and decrypts an index blob. -/
  getEncryptedBlob : BlobID → Option Bytes
  overhead : Nat
  /-- The index version to write. -/
  getMutableParameters : Option Int
  /-- The random bytes at the end of each shard. -/
  randomSuffixes : List (Option Bytes)
  randomSession : Option Bytes
  /-- The name and the encrypted bytes of a shard, from its bytes and the prefix and the
  suffix of the name. -/
  encrypt : Bytes → BlobID → BlobID → Option (BlobID × Bytes)
  /-- Whether the n-th `PutBlob` is accepted. -/
  putBlob : Nat → Bool
  /-- Whether the compaction log is written, from inputs and outputs. -/
  registerCompaction : List BlobID → List BlobID → Bool

inductive CompactionError
  | gettingIndex (indexBlobID : BlobID)
  | openingIndex (indexBlobID : BlobID) (e : OpenIndexError)
  | mutableParameters
  | buildingShards (e : BuildIndexError)
  | randomSessionID
  | encrypting
  | writing
  | registering
  /-- A run-time panic. -/
  | panicked
deriving DecidableEq

/-- What was put into storage, and the error. -/
abbrev Outcome := List (BlobID × Bytes) × Option CompactionError

structure CompactOptions where
  /-- In nanoseconds, `none` for the zero time. -/
  dropDeletedBefore : Option Int
  dropContents : List ID

section Model
variable (env : Surroundings)

/-- What iterating over all entries of an input calls back with, and the error that ended it. -/
def iterateInput (ndx : PackIndex) : List Info × Option ReadError := (ndx.opened []).Iterate AllIDs

/-- The error of the iteration is dropped. -/
def addIndexBlobsToBuilder (bld : Builder) (indexBlobID : BlobID) : Except CompactionError Builder :=
  match env.getEncryptedBlob indexBlobID with
  | none => .error (.gettingIndex indexBlobID)
  | some data =>
    match Open env.overhead data with
    | .error e => .error (.openingIndex indexBlobID e)
    | .ok ndx =>
      if (iterateInput ndx).2 = some .panicked then .error .panicked
      else .ok (bld.addAll (iterateInput ndx).1)

/-- The inputs one after the other, up to the first that fails. -/
def addInputs : Builder → List BlobID → Except CompactionError Builder
  | bld, [] => .ok bld
  | bld, indexBlobID :: rest =>
    match addIndexBlobsToBuilder env bld indexBlobID with
    | .error e => .error e
    | .ok bld => addInputs bld rest

/-- Encrypts and puts the shards, the first of them with the n-th `PutBlob`. -/
def writeShards (outputPrefix suffix : BlobID) : List Bytes → Nat → Outcome
  | [], _ => ([],none)
  | data :: rest, n =>
    match env.encrypt data outputPrefix suffix with
    | none => ([],some .encrypting)
    | some blob =>
      if env.putBlob n then
        let further := writeShards outputPrefix suffix rest (n + 1)
        (blob :: further.1,further.2)
      else ([],some .writing)

def decimal (n : Nat) : Bytes := n.repr.toList.map fun c => UInt8.ofNat c.toNat

/-- `s%x-c%v`. -/
def sessionID (rnd : Bytes) (shards : Nat) : BlobID := 115 :: hexEncode rnd ++ [45,99] ++ decimal shards

/-- What `CompactEpoch` does with the shards it has built. -/
def writeEpoch (outputPrefix : BlobID) : Except BuildIndexError (List Bytes) → Outcome
  | .error e => ([],some (.buildingShards e))
  | .ok dataShards =>
    match env.randomSession with
    | none => ([],some .randomSessionID)
    | some rnd => writeShards env outputPrefix (sessionID rnd dataShards.length) dataShards 0

/-- `ManagerV1.CompactEpoch`. -/
def CompactEpoch (blobIDs : List BlobID) (outputPrefix : BlobID) : Outcome :=
  match addInputs env Builder.empty blobIDs with
  | .error e => ([],some e)
  | .ok tmpbld =>
    match env.getMutableParameters with
    | none => ([],some .mutableParameters)
    | some indexVersion =>
      writeEpoch env outputPrefix (tmpbld.BuildShards indexVersion true DefaultIndexShardSize env.randomSuffixes)

def dropContentsFromBuilder (bld : Builder) (opt : CompactOptions) : Builder :=
  let bld := opt.dropContents.foldl Builder.erase bld
  match opt.dropDeletedBefore with
  | none => bld
  | some dropDeletedBefore =>
    bld.infos.foldl (fun bld i =>
      if i.deleted ∧ i.timestampSeconds * 10 ^ 9 < dropDeletedBefore then bld.erase i.contentID else bld) bld

/-- One index blob or none is left alone when nothing shall be dropped. -/
def nothingToCompact (indexBlobs : List BlobID) (opt : CompactOptions) : Prop :=
  indexBlobs.length ≤ 1 ∧ opt.dropDeletedBefore = none ∧ opt.dropContents.length = 0

instance (indexBlobs : List BlobID) (opt : CompactOptions) : Decidable (nothingToCompact indexBlobs opt) := by
  unfold nothingToCompact
  infer_instance

/-- What `compactIndexBlobs` does with the shards it has built. -/
def writeIndexBlobs (indexBlobs : List BlobID) : Except BuildIndexError (List Bytes) → Outcome
  | .error e => ([],some (.buildingShards e))
  | .ok dataShards =>
    let written := writeShards env V0IndexBlobPrefix [] dataShards 0
    match written.2 with
    | some e => (written.1,some e)
    | none =>
      if env.registerCompaction indexBlobs (written.1.map Prod.fst) then (written.1,none)
      else (written.1,some .registering)

/-- `ManagerV0.compactIndexBlobs`. -/
def compactIndexBlobs (indexBlobs : List BlobID) (opt : CompactOptions) : Outcome :=
  if nothingToCompact indexBlobs opt then ([],none)
  else
    match env.getMutableParameters with
    | none => ([],some .mutableParameters)
    | some indexVersion =>
      match addInputs env Builder.empty indexBlobs with
      | .error e => ([],some e)
      | .ok bld =>
        writeIndexBlobs env indexBlobs
          ((dropContentsFromBuilder bld opt).BuildShards indexVersion false DefaultIndexShardSize env.randomSuffixes)

end Model

section Inputs
variable (env : Surroundings)

/-- The input cannot be read or opened, or its iteration panics. -/
def Unavailable (indexBlobID : BlobID) : Prop :=
  ∀ data, env.getEncryptedBlob indexBlobID = some data → ∀ ndx, Open env.overhead data = .ok ndx →
    (iterateInput ndx).2 = some .panicked

/-- The iteration of the input ends with an error. -/
def Truncated (indexBlobID : BlobID) : Prop :=
  ∃ data ndx e, env.getEncryptedBlob indexBlobID = some data ∧ Open env.overhead data = .ok ndx ∧
    (iterateInput ndx).2 = some e ∧ e ≠ .panicked

/-- The entries that the iteration of the input delivers. -/
def delivered (indexBlobID : BlobID) : List Info :=
  match env.getEncryptedBlob indexBlobID with
  | none => []
  | some data =>
    match Open env.overhead data with
    | .error _ => []
    | .ok ndx => (iterateInput ndx).1

variable {env}

theorem addIndexBlobsToBuilder_ok {bld : Builder} {indexBlobID : BlobID} (available : ¬Unavailable env indexBlobID) :
    addIndexBlobsToBuilder env bld indexBlobID = .ok (bld.addAll (delivered env indexBlobID)) := by
  simp only [Unavailable,not_forall] at available
  obtain ⟨data,read,ndx,opened,calm⟩ := available
  simp only [addIndexBlobsToBuilder,delivered,read,opened,if_neg calm]

theorem addIndexBlobsToBuilder_error {bld : Builder} {indexBlobID : BlobID} (unavailable : Unavailable env indexBlobID) :
    ∃ e, addIndexBlobsToBuilder env bld indexBlobID = .error e := by
  cases read : env.getEncryptedBlob indexBlobID with
  | none => exact ⟨.gettingIndex indexBlobID,by rw [addIndexBlobsToBuilder,read]⟩
  | some data =>
    cases opened : Open env.overhead data with
    | error e => exact ⟨.openingIndex indexBlobID e,by simp only [addIndexBlobsToBuilder,read,opened]⟩
    | ok ndx =>
      exact ⟨.panicked,by simp only [addIndexBlobsToBuilder,read,opened,if_pos (unavailable data read ndx opened)]⟩

theorem addInputs_ok {blobIDs : List BlobID} (available : ∀ blobID ∈ blobIDs, ¬Unavailable env blobID) (bld : Builder) :
    addInputs env bld blobIDs = .ok (bld.addAll (blobIDs.flatMap (delivered env))) := by
  induction blobIDs generalizing bld with
  | nil => rfl
  | cons blobID rest ih =>
    rw [addInputs,addIndexBlobsToBuilder_ok (available blobID (by simp)),List.flatMap_cons]
    dsimp only
    rw [ih (fun other member => available other (by simp [member])),Builder.addAll,Builder.addAll,Builder.addAll,
      List.foldl_append]

theorem addInputs_error {blobIDs : List BlobID} (unavailable : ∃ blobID ∈ blobIDs, Unavailable env blobID) (bld : Builder) :
    ∃ e, addInputs env bld blobIDs = .error e := by
  induction blobIDs generalizing bld with
  | nil => simp at unavailable
  | cons blobID rest ih =>
    rw [addInputs]
    by_cases first : Unavailable env blobID
    · obtain ⟨e,failed⟩ := addIndexBlobsToBuilder_error first
      rw [failed]
      exact ⟨e,rfl⟩
    · rw [addIndexBlobsToBuilder_ok first]
      obtain ⟨other,member,bad⟩ := unavailable
      rcases List.mem_cons.mp member with rfl | later
      · exact absurd bad first
      · exact ih ⟨other,later,bad⟩ _

end Inputs

end Vbe.IndexBlob
