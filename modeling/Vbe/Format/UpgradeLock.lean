import Vbe.Format.Openable
import Vbe.Library.Runs
import Mathlib.Logic.Function.Basic

/-! Upgrades of the format by any number of owners, each with a manager of its own that remembers
what it read or wrote last. -/
namespace Vbe.Format
open Vbe.Index (Bytes)
open Vbe.Library

def BackupBlobIDPrefix : String := "kopia.repository.backup."

def LegacyIndexPoisonBlobID : String :=
  "n00000000000000000000000000000000-repository_unreadable_by_this_kopia_version_upgrade_required"

def legacyIndexPoison : Bytes :=
  "The format of this repository has been upgraded and cannot be read by old clients".toUTF8.toList

def BackupBlobID (l : UpgradeLockIntent) : String := BackupBlobIDPrefix ++ l.OwnerID

namespace UpgradeLockIntent

/-- `time.Time{}`, in nanoseconds. -/
def zeroTime : Time := -62135596800000000000

def totalDrainInterval (l : UpgradeLockIntent) : Duration := l.MaxPermittedClockDrift + 2 * l.IODrainTimeout

def UpgradeTime (l : UpgradeLockIntent) : Time :=
  if l.AdvanceNoticeDuration > l.totalDrainInterval then l.CreationTime + l.AdvanceNoticeDuration
  else l.CreationTime + l.totalDrainInterval

def Validate (l : UpgradeLockIntent) : Bool :=
  l.OwnerID ≠ "" && l.CreationTime ≠ zeroTime && !(l.IODrainTimeout ≤ 0) && !(l.StatusPollInterval > l.IODrainTimeout) &&
    l.Message ≠ "" && !(l.MaxPermittedClockDrift ≤ 0) &&
    (l.AdvanceNoticeDuration = 0 || !(l.AdvanceNoticeDuration < 0) && !(l.AdvanceNoticeDuration ≤ l.totalDrainInterval))

/-- An owner may extend the notice of a lock. -/
def Update (l other : UpgradeLockIntent) : Option UpgradeLockIntent :=
  if l.OwnerID ≠ other.OwnerID then none
  else if l.AdvanceNoticeDuration = 0 then
    if other.AdvanceNoticeDuration ≠ 0 then none else some { l with AdvanceNoticeDuration := other.AdvanceNoticeDuration }
  else if other.AdvanceNoticeDuration = 0 then none
  else if other.UpgradeTime < l.UpgradeTime then none
  else some { l with AdvanceNoticeDuration := other.AdvanceNoticeDuration }

end UpgradeLockIntent

section Operations
variable {Key : Type} (sw : Software Key)

def updateRepoConfigLocked (m : Manager Key) (nonce : Bytes) : Call Key (Manager Key) :=
  match m.j.EncryptRepositoryConfig sw m.repoConfig m.formatEncryptionKey nonce with
  | none => .fail m
  | some j => do
    let m := { m with j := j }
    WriteKopiaRepositoryBlob sw m m.j m.blobCfgBlob
    .answer m

namespace Manager

def withLock (m : Manager Key) (l : Option UpgradeLockIntent) : Manager Key :=
  { m with repoConfig := { m.repoConfig with UpgradeLock := l } }

def withVersion (m : Manager Key) (version : Int) : Manager Key :=
  { m with repoConfig := { m.repoConfig with ContentFormat := { m.repoConfig.ContentFormat with Version := version } } }

/-- The blob in memory is backed up before a lock is placed. -/
def SetUpgradeLockIntent (m : Manager Key) (l : UpgradeLockIntent) (nonce : Bytes) : Call Key (Manager Key) :=
  if !l.Validate then .fail m
  else
    match m.repoConfig.UpgradeLock with
    | none =>
      if m.repoConfig.ContentFormat.Version ≥ sw.MaxFormatVersion then .fail m
      else do
        WriteKopiaRepositoryBlobWithID sw m m.j m.blobCfgBlob (BackupBlobID l)
        updateRepoConfigLocked sw ((m.withLock (some l)).withVersion sw.MaxFormatVersion) nonce
    | some lock =>
      match lock.Update l with
      | none => .fail m
      | some newL => updateRepoConfigLocked sw (m.withLock (some newL)) nonce

/-- Whether the poison is written does not matter. -/
def CommitUpgrade (m : Manager Key) (nonce : Bytes) : Call Key (Manager Key) :=
  match m.repoConfig.UpgradeLock with
  | none => .fail m
  | some _ => .ask (.PutBlob LegacyIndexPoisonBlobID legacyIndexPoison .none) fun _ =>
    updateRepoConfigLocked sw (m.withLock none) nonce

/-- Finds the oldest backup and deletes the others on the way. -/
def keepOldest (m : Manager Key) : List Blob → Option Blob → Call Key (Option Blob)
  | [], oldestBackup => .answer oldestBackup
  | bm :: rest, none => keepOldest m rest (some bm)
  | bm :: rest, some oldest =>
    if bm.Timestamp < oldest.Timestamp then do
      demand m (.DeleteBlob oldest.BlobID)
      keepOldest m rest (some bm)
    else do
      demand m (.DeleteBlob bm.BlobID)
      keepOldest m rest (some oldest)

/-- The memory of the manager keeps the lock. -/
def RollbackUpgrade (m : Manager Key) : Call Key (Manager Key) :=
  match m.repoConfig.UpgradeLock with
  | none => .fail m
  | some _ => .ask (.ListBlobs BackupBlobIDPrefix) fun reply =>
    match reply with
    | .listed blobs => do
      let oldestBackup ← keepOldest m blobs none
      match oldestBackup with
      | none => .answer m
      | some oldest => .ask (.GetBlob oldest.BlobID) fun reply =>
        match reply with
        | .data d => do
          demand m (.PutBlob KopiaRepositoryBlobID d .none)
          demand m (.DeleteBlob oldest.BlobID)
          .answer m
        | _ => .fail m
    | _ => .fail m

end Manager

inductive Operation
  | SetUpgradeLockIntent (l : UpgradeLockIntent) (nonce : Bytes)
  | CommitUpgrade (nonce : Bytes)
  | RollbackUpgrade
  | change (c : Change)

def Operation.call (m : Manager Key) : Operation → Call Key (Manager Key)
  | SetUpgradeLockIntent l nonce => m.SetUpgradeLockIntent sw l nonce
  | CommitUpgrade nonce => m.CommitUpgrade sw nonce
  | RollbackUpgrade => m.RollbackUpgrade
  | change c => c.call sw m

structure World (Key : Type) where
  storage : Storage
  managers : Nat → Option (Manager Key)
  /-- What the repository blob has been, the latest first. -/
  history : List Bytes

/-- Managers are made, refresh what they remember, and run operations, as the software of a version does. -/
inductive Label
  | NewManager (k : Nat) (version : Int) (password : String)
  | refresh (k : Nat) (version : Int)
  | run (k : Nat) (version : Int) (op : Operation) (endings : List Ending)

namespace World

def remember (w : World Key) (k : Nat) (m : Option (Manager Key)) : World Key :=
  { w with managers := Function.update w.managers k m }

def stores (w : World Key) (st : Storage) : World Key :=
  match st.GetBlob KopiaRepositoryBlobID with
  | some b => if w.history.head? = some b then { w with storage := st } else { w with storage := st, history := b :: w.history }
  | none => { w with storage := st }

end World

def Software.at (sw : Software Key) (version : Int) : Software Key := { sw with MaxFormatVersion := version }

/-- How an operation ends, and what it leaves in the storage. -/
def Operation.runs (m : Manager Key) (version : Int) (op : Operation) (endings : List Ending) (st : Storage) :
    Storage × Option (Except (Manager Key) (Manager Key)) :=
  (op.call (sw.at version) m).steps Storage.perform endings st

/-- A manager whose operation fails remembers what it had made of it so far; one that is stopped is gone. -/
def step (w : World Key) : Label → Option (World Key)
  | .NewManager k version password => some (w.remember k (NewManager (sw.at version) w.storage password))
  | .refresh k version =>
    match w.managers k with
    | none => none
    | some m =>
      match (w.storage.GetBlob KopiaRepositoryBlobID).bind fun b =>
          load (sw.at version) m.password (some m.formatEncryptionKey) b (w.storage.GetBlob KopiaBlobCfgBlobID) with
      | none => some w
      | some m' => some (w.remember k (some m'))
  | .run k version op endings =>
    match w.managers k with
    | none => none
    | some m =>
      match op.runs sw m version endings w.storage with
      | (st,some (.ok m')) => some ((w.stores st).remember k (some m'))
      | (st,some (.error m')) => some ((w.stores st).remember k (some m'))
      | (st,none) => some ((w.stores st).remember k none)

end Operations

section Versions
variable {Key : Type} {sw : Software Key} {version : Int}

theorem provider_at (later : sw.MaxFormatVersion ≤ version) {f : ContentFormat} {formatBytes : Bytes} {p : Provider}
    (made : NewFormattingOptionsProvider sw f formatBytes = some p) :
    NewFormattingOptionsProvider (sw.at version) f formatBytes = some p := by
  unfold NewFormattingOptionsProvider at made ⊢
  split at made
  next => exact nomatch made
  next supported =>
    have supported' : ¬ (f.Version < MinSupportedReadVersion ∨ f.Version > (sw.at version).MaxFormatVersion) := by
      simp only [Software.at]
      omega
    rw [if_neg supported']
    exact made

/-- Later software opens what earlier software opens. -/
theorem NewManager_at (later : sw.MaxFormatVersion ≤ version) {st : Storage} {password : String} {m : Manager Key}
    (opened : NewManager sw st password = some m) : NewManager (sw.at version) st password = some m := by
  obtain ⟨b,stored,loaded⟩ := Option.bind_eq_some_iff.mp opened
  refine Option.bind_eq_some_iff.mpr ⟨b,stored,?_⟩
  simp only [load,Option.bind_eq_bind,Option.bind_eq_some_iff] at loaded ⊢
  obtain ⟨j,parsed,bytes,checked,key,derived,config,decrypted,cfg,read,p,made,same⟩ := loaded
  exact ⟨j,parsed,bytes,checked,key,derived,config,decrypted,cfg,read,p,provider_at later made,same⟩

end Versions

end Vbe.Format
