import Vbe.Index.Id

/-! The central blobs of a repository, `kopia.repository` and `kopia.blobcfg`, and what is in them. -/
namespace Vbe.Format
open Vbe.Index (Bytes)

abbrev Time := Int

abbrev Duration := Int

def Minute : Duration := 60 * 1000000000

def Hour : Duration := 60 * Minute

structure EpochParameters where
  Enabled : Bool
  EpochRefreshFrequency : Duration
  FullCheckpointFrequency : Int
  CleanupSafetyMargin : Duration
  MinEpochDuration : Duration
  EpochAdvanceOnCountThreshold : Int
  EpochAdvanceOnTotalSizeBytesThreshold : Int
  DeleteParallelism : Int
deriving DecidableEq

def EpochParameters.Validate (p : EpochParameters) : Bool :=
  !p.Enabled ||
    !(p.MinEpochDuration < 10 * Minute || p.EpochRefreshFrequency * 3 > p.MinEpochDuration || p.FullCheckpointFrequency ≤ 0 ||
      p.CleanupSafetyMargin < p.EpochRefreshFrequency * 3 || p.EpochAdvanceOnCountThreshold < 10 ||
      p.EpochAdvanceOnTotalSizeBytesThreshold < 1048576)

def minValidPackSize : Int := 10 * 1048576

def maxValidPackSize : Int := 120 * 1048576

structure MutableParameters where
  Version : Int
  MaxPackSize : Int
  IndexVersion : Int
  EpochParameters : EpochParameters
deriving DecidableEq

/-- The version is not looked at. -/
def MutableParameters.Validate (v : MutableParameters) : Bool :=
  !(v.MaxPackSize < minValidPackSize || v.MaxPackSize > maxValidPackSize || v.IndexVersion < 0 || v.IndexVersion > 2) &&
    v.EpochParameters.Validate

/-- What the algorithms of contents are made from. -/
structure Algorithms where
  Hash : String
  Encryption : String
  ECC : String
  ECCOverheadPercent : Int
  HMACSecret : Bytes
  MasterKey : Bytes
deriving DecidableEq

structure ContentFormat extends Algorithms, MutableParameters where
  EnablePasswordChange : Bool
deriving DecidableEq

structure IfNotUnderstood where
  Warn : Bool
  Message : String
  URL : String
  UpgradeToVersion : String
deriving DecidableEq

structure Required where
  Feature : String
  IfNotUnderstood : IfNotUnderstood
deriving DecidableEq

structure UpgradeLockIntent where
  OwnerID : String
  CreationTime : Time
  AdvanceNoticeDuration : Duration
  IODrainTimeout : Duration
  StatusPollInterval : Duration
  Message : String
  MaxPermittedClockDrift : Duration
deriving DecidableEq

structure RepositoryConfig where
  ContentFormat : ContentFormat
  Splitter : String
  UpgradeLock : Option UpgradeLockIntent
  RequiredFeatures : List Required
deriving DecidableEq

structure KopiaRepositoryJSON where
  Tool : String
  BuildVersion : String
  BuildInfo : String
  UniqueID : Bytes
  KeyDerivationAlgorithm : String
  EncryptionAlgorithm : String
  EncryptedFormatBytes : Bytes
deriving DecidableEq

structure BlobStorageConfiguration where
  RetentionMode : String
  RetentionPeriod : Duration
deriving DecidableEq

namespace BlobStorageConfiguration

def none : BlobStorageConfiguration := ⟨"",0⟩

def Validate (r : BlobStorageConfiguration) : Bool :=
  !((r.RetentionMode == "") != (r.RetentionPeriod == 0) || r.RetentionPeriod ≠ 0 && r.RetentionPeriod < 24 * Hour)

end BlobStorageConfiguration

def KopiaRepositoryBlobID : String := "kopia.repository"

def KopiaBlobCfgBlobID : String := "kopia.blobcfg"

structure Blob where
  BlobID : String
  data : Bytes
  Timestamp : Time
deriving DecidableEq

abbrev Storage := List Blob

namespace Storage

def GetBlob (st : Storage) (blobID : String) : Option Bytes := (st.find? (·.BlobID = blobID)).map (·.data)

def PutBlob (st : Storage) (blob : Blob) : Storage := blob :: st.filter (·.BlobID ≠ blob.BlobID)

def DeleteBlob (st : Storage) (blobID : String) : Storage := st.filter (·.BlobID ≠ blobID)

@[simp] theorem GetBlob_PutBlob_self (st : Storage) (blob : Blob) : (st.PutBlob blob).GetBlob blob.BlobID = some blob.data := by
  simp [GetBlob,PutBlob]

theorem GetBlob_PutBlob (st : Storage) {blob : Blob} {blobID : String} (other : blobID ≠ blob.BlobID) :
    (st.PutBlob blob).GetBlob blobID = st.GetBlob blobID := by
  rw [GetBlob,GetBlob,PutBlob,List.find?_cons_of_neg (by simpa using other.symm),List.find?_filter]
  congr 2
  funext b
  by_cases same : b.BlobID = blobID
  · simp [same,other]
  · simp [same]

theorem GetBlob_DeleteBlob (st : Storage) {deleted blobID : String} (other : blobID ≠ deleted) :
    (st.DeleteBlob deleted).GetBlob blobID = st.GetBlob blobID := by
  rw [GetBlob,GetBlob,DeleteBlob,List.find?_filter]
  congr 2
  funext b
  by_cases same : b.BlobID = blobID
  · simp [same,other]
  · simp [same]

end Storage

/-- A call to the storage. -/
inductive Op
  | GetBlob (blobID : String)
  | PutBlob (blobID : String) (data : Bytes) (retention : BlobStorageConfiguration)
  | DeleteBlob (blobID : String)
  | ListBlobs (prefix' : String)
deriving DecidableEq

inductive Reply
  | done
  | failed
  | notFound
  | data (b : Bytes)
  | listed (blobs : List Blob)
deriving DecidableEq

/-- How a call to the storage ends: one that fails may have written all the same, and a list is in some order. -/
inductive Ending
  | returns (time : Time)
  | lists (blobs : List Blob)
  | fails (written : Option Time)
deriving DecidableEq

namespace Storage

def written (st : Storage) (op : Op) (time : Time) : Storage :=
  match op with
  | .PutBlob blobID data _ => st.PutBlob ⟨blobID,data,time⟩
  | .DeleteBlob blobID => st.DeleteBlob blobID
  | .GetBlob _ | .ListBlobs _ => st

def listing (st : Storage) (prefix' : String) : List Blob := st.filter fun b => prefix'.toList.isPrefixOf b.BlobID.toList

def perform (st : Storage) (op : Op) : Ending → Storage × Reply
  | .fails none => (st,.failed)
  | .fails (some time) => (st.written op time,.failed)
  | .returns time =>
    match op with
    | .GetBlob blobID => (st,match st.GetBlob blobID with | some b => .data b | none => .notFound)
    | .ListBlobs p => (st,.listed (st.listing p))
    | .PutBlob .. | .DeleteBlob .. => (st.written op time,.done)
  | .lists blobs =>
    match op with
    | .ListBlobs p => (st,if blobs.Perm (st.listing p) then .listed blobs else .failed)
    | _ => (st,.failed)

end Storage

end Vbe.Format
