import Vbe.Library.Paths
import Vbe.Snapshots.Summaries
import Vbe.Workshare.Walks

/-! The rewriting of the directories of a snapshot, with a pool of workers and a cache of the entries that have been replaced. -/
namespace Vbe.Snapshots.Rewriting
open Vbe.Index (Bytes)
open Vbe.Library Vbe.Workshare
open Vbe.Library.Paths (Join)

variable {ε κ : Type}

/-- What the rewriter is given: the callbacks, the repository with its errors, the hash of the JSON of an entry, and the message that
an error is wrapped in. A callback may return no entry, with or without an error. -/
structure DirRewriter (ε κ : Type) where
  Parallel : Int
  RewriteEntry : Bytes → DirEntry → Option DirEntry × Option ε
  OnDirectoryReadFailure : Bytes → DirEntry → ε → Option DirEntry × Option ε
  readDirEntries : Objects.ID → Except ε (List DirEntry)
  writeDirManifest : DirManifest → Except ε Objects.ID
  getCacheKey : DirEntry → κ
  sorting : Sorting
  Wrap : ε → Bytes → ε

/-- The replacement of an entry, or that there is none, or an error. Without a summary of the directory there is a panic. -/
inductive Replacement (ε : Type)
  | replaced (de : DirEntry)
  | removed
  | failed (err : ε)
  | panicked

namespace Replacement

def dirEntry : Replacement ε → Option DirEntry
  | replaced de => some de
  | _ => none

def stops : Replacement ε → Bool
  | failed _ | panicked => true
  | _ => false

def isPanic : Replacement ε → Bool
  | panicked => true
  | _ => false

def wrap (Wrap : ε → Bytes → ε) (message : Bytes) : Replacement ε → Replacement ε
  | failed err => failed (Wrap err message)
  | r => r

end Replacement

/-- Results without an entry, where there may be an error. -/
def noEntry : Option ε → Replacement ε
  | none => .removed
  | some err => .failed err

/-- The entries replaced, by the keys of those they replace. -/
abbrev Cache (κ : Type) := List (κ × DirEntry)

variable [DecidableEq κ]

def Cache.PutIfAbsent (cache : Cache κ) (key : κ) (de : DirEntry) : Cache κ :=
  if (cache.lookup key).isSome then cache else (key,de) :: cache

namespace DirRewriter
variable (rewriter : DirRewriter ε κ)

/-- What comes before the loop of `processDirectoryEntries`, but for the cache. -/
def enter : Bytes × DirEntry → Entered (Bytes × DirEntry) (Replacement ε) := fun (parentPath,input) =>
  match rewriter.RewriteEntry parentPath input with
  | (none,err) => .answer (noEntry err)
  | (some result,_) =>
    if result.Type = .EntryTypeDirectory then
      match rewriter.readDirEntries result.ObjectID with
      | .ok entries => .children (entries.map fun child => (Join parentPath child.Name,child))
      | .error err =>
        match rewriter.OnDirectoryReadFailure parentPath result err with
        | (none,err) => .answer ((noEntry err).wrap rewriter.Wrap input.Name)
        | (some replacement,_) => .answer (.replaced replacement)
    else .answer (.replaced result)

def addAll (entries : List DirEntry) : DirManifestBuilder := entries.foldl DirManifestBuilder.AddEntry .empty

/-- The directory with its new entries. -/
def rebuild (entry : DirEntry) (entries : List DirEntry) : Replacement ε :=
  match entry.DirSummary with
  | none => .panicked
  | some summary =>
    let dm := ((addAll entries).Build rewriter.sorting entry.ModTime summary.IncompleteReason).1
    match rewriter.writeDirManifest dm with
    | .ok oid => .replaced { entry with DirSummary := some dm.Summary, ObjectID := oid }
    | .error err => .failed err

/-- What comes after the loop. -/
def finish (i : Bytes × DirEntry) (entries : List DirEntry) : Replacement ε :=
  match rewriter.RewriteEntry i.1 i.2 with
  | (some entry,_) => (rewriter.rebuild entry entries).wrap rewriter.Wrap i.2.Name
  | (none,err) => noEntry err

/-- Errors of requests that were handed over are dropped. -/
def getCachedReplacement : Walk (Cache κ) (Bytes × DirEntry) (Replacement ε) where
  enter cache i :=
    match cache.lookup (rewriter.getCacheKey i.2) with
    | some cached => .hit (.replaced cached)
    | none => rewriter.enter i
  stops := Replacement.stops
  stopped i child r := (r.wrap rewriter.Wrap child.2.Name).wrap rewriter.Wrap i.2.Name
  finish i calls group :=
    if group.any Replacement.isPanic then .panicked
    else rewriter.finish i (calls.filterMap Replacement.dirEntry ++ group.filterMap Replacement.dirEntry)
  leave cache i r :=
    match r.dirEntry with
    | some result => cache.PutIfAbsent (rewriter.getCacheKey i.2) result
    | none => cache

/-- The number of workers besides the goroutine that calls. -/
def numWorkers (numCPU : Int) : Int := (if rewriter.Parallel = 0 then numCPU else rewriter.Parallel) - 1

/-- The entry of the root and whether it is another, from what has become of the root. -/
def RewriteSnapshotManifest (invalid : ε) (message : Bytes) (root : DirEntry) (r : Replacement ε) : Except ε (Bool × Option DirEntry) :=
  let changed (newEntry : Option DirEntry) : Bool × Option DirEntry :=
    if newEntry.map rewriter.getCacheKey = some (rewriter.getCacheKey root) then (false,some root) else (true,newEntry)
  match r with
  | .failed err => .error (rewriter.Wrap err message)
  | .replaced newEntry => .ok (changed (some newEntry))
  | .removed | .panicked =>
    match rewriter.OnDirectoryReadFailure Library.Paths.dot root invalid with
    | (_,some err) => .error err
    | (newEntry,none) => .ok (changed newEntry)

end DirRewriter

section Order
variable {b b' : DirManifestBuilder} {de : DirEntry} {entries entries' : List DirEntry}

/-- The summary of a directory that an entry stands for. -/
def below? (de : DirEntry) : Option DirectorySummary := if isDir de then de.DirSummary else none

def failures (de : DirEntry) : List EntryWithError := ((below? de).map DirectorySummary.FailedEntries).getD []

/-- No two entries, and no two failures below them, are in the same place. -/
structure Tidy (entries : List DirEntry) : Prop where
  names : (entries.map fun de => toLex (!isDir de,de.Name)).Nodup
  paths : ((entries.flatMap failures).map EntryWithError.EntryPath).Nodup

/-- Builders that differ in the order of what was added. -/
structure Alike (b b' : DirManifestBuilder) : Prop where
  entries : b.entries.Perm b'.entries
  failed : b.summary.FailedEntries.Perm b'.summary.FailedEntries
  rest : b'.summary = { b.summary with FailedEntries := b'.summary.FailedEntries }

def count (f : DirectorySummary → Int) (de : DirEntry) : Int := ((below? de).map f).getD 0

/-- The times that the newest is looked for among. -/
def times (de : DirEntry) : List UTCTimestamp := de.ModTime :: ((below? de).map DirectorySummary.MaxModTime).toList

theorem AddEntry_summary : (b.AddEntry de).summary = { b.summary with
    TotalFileCount := b.summary.TotalFileCount + ((if de.Type = .EntryTypeFile then 1 else 0) + count DirectorySummary.TotalFileCount de)
    TotalFileSize := b.summary.TotalFileSize +
      ((if de.Type = .EntryTypeFile then de.FileSize else 0) + ((below? de).map DirectorySummary.TotalFileSize).getD 0)
    TotalSymlinkCount := b.summary.TotalSymlinkCount + if de.Type = .EntryTypeSymlink then 1 else 0
    TotalDirCount := b.summary.TotalDirCount + count DirectorySummary.TotalDirCount de
    MaxModTime := (times de).foldl max b.summary.MaxModTime
    FatalErrorCount := b.summary.FatalErrorCount + count DirectorySummary.FatalErrorCount de
    IgnoredErrorCount := b.summary.IgnoredErrorCount + count DirectorySummary.IgnoredErrorCount de
    FailedEntries := b.summary.FailedEntries ++ failures de } := by
  by_cases directory : de.Type = .EntryTypeDirectory
  · have inner : below? de = de.DirSummary := if_pos (decide_eq_true directory)
    cases summary : de.DirSummary with
    | none =>
      have newest : (b.AddEntry de).summary = { b.summary with MaxModTime := max b.summary.MaxModTime de.ModTime } := by
        rw [← later_eq_max]
        unfold DirManifestBuilder.AddEntry
        simp only [directory,summary]
        split <;> rfl
      rw [newest]
      simp [count,failures,times,inner,summary,directory]
    | some s =>
      have same : { de with DirSummary := some s } = de := by
        rw [← summary]
      rw [← same,AddEntry_directory directory s,same]
      simp [count,failures,times,inner,summary,directory]
  · have inner : below? de = none := if_neg (by simpa [isDir] using directory)
    rw [AddEntry_leaf directory]
    simp [count,failures,times,inner]

theorem Alike.refl (b : DirManifestBuilder) : Alike b b := ⟨.refl _,.refl _,rfl⟩

theorem Alike.trans {b'' : DirManifestBuilder} (first : Alike b b') (second : Alike b' b'') : Alike b b'' := by
  refine ⟨first.entries.trans second.entries,first.failed.trans second.failed,?_⟩
  rw [second.rest,first.rest]

theorem Alike.add (alike : Alike b b') : Alike (b.AddEntry de) (b'.AddEntry de) := by
  refine ⟨alike.entries.append_right _,?_,?_⟩
  · rw [AddEntry_summary,AddEntry_summary]
    exact alike.failed.append_right _
  · rw [AddEntry_summary,AddEntry_summary,alike.rest]

theorem foldl_max_comm (l l' : List UTCTimestamp) (t : UTCTimestamp) : l'.foldl max (l.foldl max t) = l.foldl max (l'.foldl max t) := by
  rw [← List.foldl_append,← List.foldl_append]
  have right (t u v : UTCTimestamp) : max (max t u) v = max (max t v) u := by
    rw [max_assoc,max_assoc,max_comm u v]
  have : RightCommutative (max : UTCTimestamp → UTCTimestamp → UTCTimestamp) := ⟨right⟩
  exact List.perm_append_comm.foldl_eq t

theorem alike_swap (b : DirManifestBuilder) (d e : DirEntry) : Alike ((b.AddEntry d).AddEntry e) ((b.AddEntry e).AddEntry d) := by
  refine ⟨?_,?_,?_⟩
  · rw [AddEntry_entries,AddEntry_entries,AddEntry_entries,AddEntry_entries,List.append_assoc,List.append_assoc]
    exact List.Perm.append_left _ (List.Perm.swap e d [])
  · simp only [AddEntry_summary,List.append_assoc]
    exact List.Perm.append_left _ List.perm_append_comm
  · simp only [AddEntry_summary,foldl_max_comm (times d) (times e),DirectorySummary.mk.injEq]
    refine ⟨?_,?_,?_,?_,trivial,trivial,?_,?_,trivial⟩ <;> ac_rfl

theorem alike_foldl (alike : Alike b b') : Alike (entries.foldl DirManifestBuilder.AddEntry b) (entries.foldl DirManifestBuilder.AddEntry b') := by
  induction entries generalizing b b' with
  | nil => exact alike
  | cons de entries ih => exact ih alike.add

theorem alike_addAll (perm : entries.Perm entries') (b : DirManifestBuilder) :
    Alike (entries.foldl DirManifestBuilder.AddEntry b) (entries'.foldl DirManifestBuilder.AddEntry b) := by
  induction perm generalizing b with
  | nil => exact .refl b
  | cons de _ ih => exact ih (b.AddEntry de)
  | swap d e entries => exact alike_foldl (alike_swap b e d)
  | trans _ _ first second => exact (first b).trans (second b)

theorem foldl_entries : (entries.foldl DirManifestBuilder.AddEntry b).entries = b.entries ++ entries := by
  induction entries generalizing b with
  | nil => exact (List.append_nil _).symm
  | cons de entries ih => rw [List.foldl_cons,ih,AddEntry_entries,List.append_assoc,List.singleton_append]

theorem foldl_failed : (entries.foldl DirManifestBuilder.AddEntry b).summary.FailedEntries = b.summary.FailedEntries ++ entries.flatMap failures := by
  induction entries generalizing b with
  | nil => exact (List.append_nil _).symm
  | cons de entries ih =>
    rw [List.foldl_cons,ih,AddEntry_summary,List.append_assoc]
    rfl

theorem entryLess_iff (l r : DirEntry) : entryLess l r = true ↔ toLex (!isDir l,l.Name) < toLex (!isDir r,r.Name) := by
  rw [Prod.Lex.toLex_lt_toLex,entryLess]
  cases isDir l <;> cases isDir r <;> simp

theorem pathLess_iff (l r : EntryWithError) : pathLess l r = true ↔ l.EntryPath < r.EntryPath := decide_eq_true_iff

/-- The manifest of a directory does not depend on the order in which tidy entries were added. -/
theorem Build_perm (sorting : Sorting) (tidy : Tidy entries) (perm : entries.Perm entries') (dirModTime : UTCTimestamp) (reason : Bytes) :
    ((DirRewriter.addAll entries).Build sorting dirModTime reason).1 = ((DirRewriter.addAll entries').Build sorting dirModTime reason).1 := by
  have alike : Alike (DirRewriter.addAll entries) (DirRewriter.addAll entries') := alike_addAll perm .empty
  have sorted := sorting.sort_eq_of_perm _ entryLess_iff perm tidy.names
  have failed : (sorting.sort pathLess (DirRewriter.addAll entries).summary.FailedEntries) =
      sorting.sort pathLess (DirRewriter.addAll entries').summary.FailedEntries := by
    refine sorting.sort_eq_of_perm _ pathLess_iff alike.failed ?_
    rw [DirRewriter.addAll,foldl_failed]
    exact tidy.paths
  have listed (entries : List DirEntry) : (DirRewriter.addAll entries).entries = entries := foldl_entries
  have rest := alike.rest
  have empty : entries = [] ↔ entries' = [] := by rw [← List.length_eq_zero_iff,perm.length_eq,List.length_eq_zero_iff]
  have whole : ((DirRewriter.addAll entries).Build sorting dirModTime reason).1.Summary =
      ((DirRewriter.addAll entries').Build sorting dirModTime reason).1.Summary := by
    rw [Build_summary,Build_summary,failed,listed,listed]
    rw [rest]
    simp only [empty]
  have manifest (b : DirManifestBuilder) : (b.Build sorting dirModTime reason).1 =
      ⟨directoryStreamType,sorting.sort entryLess b.entries,(b.Build sorting dirModTime reason).1.Summary⟩ := rfl
  rw [manifest (DirRewriter.addAll entries),manifest (DirRewriter.addAll entries'),whole,listed,listed,sorted]

end Order

end Vbe.Snapshots.Rewriting
