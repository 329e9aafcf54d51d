import Vbe.Library.Sorting
import Vbe.Objects.Objectid

/-! How the manifest of a directory and its summary are built from what was found in it. -/
namespace Vbe.Snapshots
open Vbe.Index (Bytes)
open Vbe.Library

abbrev UTCTimestamp := Int

inductive EntryType
  | EntryTypeUnknown
  | EntryTypeFile
  | EntryTypeDirectory
  | EntryTypeSymlink
deriving DecidableEq

structure EntryWithError where
  EntryPath : Bytes
  Error : Bytes
deriving DecidableEq

structure DirectorySummary where
  TotalFileSize : Int64
  TotalFileCount : Int
  TotalSymlinkCount : Int
  TotalDirCount : Int
  MaxModTime : UTCTimestamp
  IncompleteReason : Bytes
  FatalErrorCount : Int
  IgnoredErrorCount : Int
  FailedEntries : List EntryWithError
deriving DecidableEq

def MaxFailedEntriesPerDirectorySummary : Nat := 10

structure DirEntry where
  Name : Bytes
  «Type» : EntryType
  Permissions : Int
  FileSize : Int64
  ModTime : UTCTimestamp
  UserID : Nat
  GroupID : Nat
  ObjectID : Objects.ID
  DirSummary : Option DirectorySummary
deriving DecidableEq

def directoryStreamType : Bytes := "kopia:directory".toUTF8.toList

structure DirManifest where
  StreamType : Bytes
  Entries : List DirEntry
  Summary : DirectorySummary
deriving DecidableEq

def DirectorySummary.empty : DirectorySummary := ⟨0,0,0,0,0,[],0,0,[]⟩

structure DirManifestBuilder where
  summary : DirectorySummary
  entries : List DirEntry

def isDir (e : DirEntry) : Bool := e.Type = .EntryTypeDirectory

def pathLess (l r : EntryWithError) : Bool := l.EntryPath < r.EntryPath

theorem comparing_path : Comparing pathLess := comparing_key EntryWithError.EntryPath fun _ _ => decide_eq_true_iff

/-- Directories come first, then all by name. -/
def entryLess (l r : DirEntry) : Bool :=
  if isDir l ≠ isDir r then isDir l else l.Name < r.Name

def sortedTopFailures (sorting : Sorting) (entries : List EntryWithError) : List EntryWithError :=
  (sorting.sort pathLess entries).take MaxFailedEntriesPerDirectorySummary

namespace DirManifestBuilder

def empty : DirManifestBuilder := ⟨.empty,[]⟩

def Clone (b : DirManifestBuilder) : DirManifestBuilder := ⟨b.summary,b.entries⟩

def AddEntry (b : DirManifestBuilder) (de : DirEntry) : DirManifestBuilder :=
  let s := if de.ModTime > b.summary.MaxModTime then { b.summary with MaxModTime := de.ModTime } else b.summary
  { entries := b.entries ++ [de]
    summary := match de.Type with
      | .EntryTypeSymlink => { s with TotalSymlinkCount := s.TotalSymlinkCount + 1 }
      | .EntryTypeFile => { s with
          TotalFileCount := s.TotalFileCount + 1
          TotalFileSize := s.TotalFileSize + de.FileSize }
      | .EntryTypeDirectory =>
        match de.DirSummary with
        | none => s
        | some childSummary => { s with
            TotalFileCount := s.TotalFileCount + childSummary.TotalFileCount
            TotalFileSize := s.TotalFileSize + childSummary.TotalFileSize
            TotalDirCount := s.TotalDirCount + childSummary.TotalDirCount
            FatalErrorCount := s.FatalErrorCount + childSummary.FatalErrorCount
            IgnoredErrorCount := s.IgnoredErrorCount + childSummary.IgnoredErrorCount
            FailedEntries := s.FailedEntries ++ childSummary.FailedEntries
            MaxModTime := if childSummary.MaxModTime > s.MaxModTime then childSummary.MaxModTime else s.MaxModTime }
      | .EntryTypeUnknown => s }

def AddFailedEntry (b : DirManifestBuilder) (relPath : Bytes) (isIgnoredError : Bool) (err : Bytes) : DirManifestBuilder :=
  { b with summary := { b.summary with
      IgnoredErrorCount := if isIgnoredError then b.summary.IgnoredErrorCount + 1 else b.summary.IgnoredErrorCount
      FatalErrorCount := if isIgnoredError then b.summary.FatalErrorCount else b.summary.FatalErrorCount + 1
      FailedEntries := b.summary.FailedEntries ++ [⟨relPath,err⟩] } }

/-- The manifest has a copy of the summary with the same array of failures, which is then sorted in place, but only the
builder's own slice of it is cut. -/
def Build (sorting : Sorting) (b : DirManifestBuilder) (dirModTime : UTCTimestamp) (incompleteReason : Bytes) :
    DirManifest × DirManifestBuilder :=
  let s := { b.summary with TotalDirCount := b.summary.TotalDirCount + 1 }
  let s := if b.entries.length = 0 then { s with MaxModTime := dirModTime } else s
  let s := { s with
    IncompleteReason := incompleteReason
    FailedEntries := sorting.sort pathLess b.summary.FailedEntries }
  let entries := sorting.sort entryLess b.entries
  (⟨directoryStreamType,entries,s⟩,
    ⟨{ b.summary with FailedEntries := sortedTopFailures sorting b.summary.FailedEntries },entries⟩)

end DirManifestBuilder

end Vbe.Snapshots
