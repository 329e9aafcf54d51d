import Vbe.Index.Id
import Vbe.Library.Keyed
import Vbe.Library.Queries

/-! Manifest entries in the contents of a repository, and the manager that has loaded some state of them. -/
namespace Vbe.Manifests
open Vbe.Index (Bytes)
open Vbe.Library

abbrev Time := Int

abbrev Labels := Keyed (Prod.fst : String × String → String)

structure manifestEntry where
  ID : String
  Labels : Labels
  ModTime : Time
  Deleted : Bool
  Content : Bytes

abbrev Entries := Keyed manifestEntry.ID

/-- What a manager asks of the content manager. -/
inductive Op
  | Revision
  | IsReadOnly
  /-- Iterates over the contents with the prefix of manifests, and loads each. -/
  | LoadContents
  /-- Writes a content with these entries. -/
  | WriteContent (man : List manifestEntry)
  | DeleteContent (contentID : Index.ID)
  | DisableIndexFlush
  | EnableIndexFlush
  | Flush

inductive Reply
  | revision (rev : Int)
  | readOnly (b : Bool)
  /-- What the last round of the iteration delivered, which did not meet a content that had gone, and what it decoded to. -/
  | loaded (manifests : List (Index.ID × List manifestEntry))
  | written (contentID : Index.ID)
  | done
  | failed

inductive Error
  | notFound
  | typeLabelRequired
  | randomness
  | marshal
  | unmarshal
  | contents
deriving DecidableEq

abbrev Call := Query Op Reply Empty

structure committedManifestManager where
  lastRevision : Int
  committedEntries : Entries
  committedContentIDs : List Index.ID
  autoCompactionThreshold : Nat

def newCommittedManager (autoCompactionThreshold : Nat) : committedManifestManager := ⟨0,.empty,[],autoCompactionThreshold⟩

/-- Writes entries, if there are any, and says which content they are in. Those of the manager are replaced by them. -/
def committedManifestManager.writeEntriesLocked (m : committedManifestManager) (entries : Entries) :
    Call (committedManifestManager × Except Error (Option Index.ID)) :=
  if entries.values = [] then return (m,.ok none)
  else .ask (.WriteContent entries.values) fun
    | .written contentID => return ({ m with
        committedEntries := m.committedEntries.setAll entries.values
        committedContentIDs := if contentID ∈ m.committedContentIDs then m.committedContentIDs else m.committedContentIDs ++ [contentID] },
      .ok (some contentID))
    | _ => return (m,.error .contents)

def mergeEntryLocked (entries : Entries) (e : manifestEntry) : Entries :=
  match entries.get? e.ID with
  | none => entries.set e
  | some prev => if e.ModTime > prev.ModTime then entries.set e else entries

def committedManifestManager.loadManifestContentsLocked (m : committedManifestManager)
    (manifests : List (Index.ID × List manifestEntry)) : committedManifestManager where
  lastRevision := m.lastRevision
  committedEntries := ((manifests.flatMap Prod.snd).foldl mergeEntryLocked .empty).filter fun e => !e.Deleted
  committedContentIDs := manifests.map Prod.fst
  autoCompactionThreshold := m.autoCompactionThreshold

/-- The loop over the contents that have been read into the one that was just written, if any. -/
def committedManifestManager.deleteContents (written : Option Index.ID) :
    List Index.ID → committedManifestManager → Call (committedManifestManager × Except Error Unit)
  | [], m => return (m,.ok ())
  | b :: rest, m =>
    if written = some b then deleteContents written rest m
    else .ask (.DeleteContent b) fun
      | .done => deleteContents written rest { m with committedContentIDs := m.committedContentIDs.erase b }
      | _ => return (m,.error .contents)

namespace committedManifestManager

def compactLocked (m : committedManifestManager) : Call (committedManifestManager × Except Error Unit) :=
  if m.committedContentIDs.length = 1 then return (m,.ok ())
  else .ask .DisableIndexFlush fun _ => do
    let (m,written) ← m.writeEntriesLocked m.committedEntries
    let result ← match written with
      | .error e => pure (m,.error e)
      | .ok written => deleteContents written m.committedContentIDs m
    .ask .EnableIndexFlush fun _ => return result

def maybeCompactLocked (m : committedManifestManager) : Call (committedManifestManager × Except Error Unit) :=
  .ask .IsReadOnly fun
    | .readOnly false =>
      if m.committedContentIDs.length < m.autoCompactionThreshold then return (m,.ok ())
      else do
        let (m,compacted) ← m.compactLocked
        match compacted with
        | .error e => return (m,.error e)
        | .ok () => .ask .Flush fun
          | .done => return (m,.ok ())
          | _ => return (m,.error .contents)
    | _ => return (m,.ok ())

def loadCommittedContentsLocked (m : committedManifestManager) : Call (committedManifestManager × Except Error Unit) :=
  .ask .LoadContents fun
    | .loaded manifests => (m.loadManifestContentsLocked manifests).maybeCompactLocked
    | _ => return (m,.error .contents)

def ensureInitializedLocked (m : committedManifestManager) : Call (committedManifestManager × Except Error Unit) :=
  .ask .Revision fun
    | .revision rev =>
      if m.lastRevision = rev then return (m,.ok ())
      else do
        let (m,loaded) ← m.loadCommittedContentsLocked
        match loaded with
        | .error e => return (m,.error e)
        | .ok () => return ({ m with lastRevision := rev },.ok ())
    | _ => return (m,.error .contents)

def commitEntries (m : committedManifestManager) (entries : Entries) :
    Call (committedManifestManager × Except Error (Option Index.ID)) :=
  m.writeEntriesLocked entries

end committedManifestManager

end Vbe.Manifests
