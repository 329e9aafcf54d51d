import Mathlib.Order.Bounds.Basic
import Mathlib.Algebra.BigOperators.Group.List.Basic
import Vbe.Library.Forests
import Vbe.Snapshots.DirManifestBuilder

/-! Whether the summary of a directory adds up what is in the whole tree below it. -/
namespace Vbe.Snapshots
open Vbe.Index (Bytes)
open Vbe.Library

section Calls

/-- What a builder is told, other than of directories. -/
inductive Leaf
  | entry (de : DirEntry) (other : de.Type ≠ .EntryTypeDirectory)
  | failed (relPath : Bytes) (isIgnoredError : Bool) (err : Bytes)

/-- A directory that is built before it is added. -/
structure Node where
  de : DirEntry
  directory : de.Type = .EntryTypeDirectory
  dirModTime : UTCTimestamp
  incompleteReason : Bytes

/-- The calls on a builder in their order, and for each directory those on its own builder. -/
abbrev Calls := Forest Node Leaf

def Leaf.call (b : DirManifestBuilder) : Leaf → DirManifestBuilder
  | entry de _ => b.AddEntry de
  | failed relPath isIgnoredError err => b.AddFailedEntry relPath isIgnoredError err

def Calls.build (sorting : Sorting) : Calls → DirManifestBuilder → DirManifestBuilder
  | .nil, b => b
  | .leaf l rest, b => build sorting rest (l.call b)
  | .node n children rest, b =>
    let dirManifest := ((build sorting children .empty).Build sorting n.dirModTime n.incompleteReason).1
    build sorting rest (b.AddEntry { n.de with DirSummary := some dirManifest.Summary })

structure Directory where
  calls : Calls
  dirModTime : UTCTimestamp
  incompleteReason : Bytes

namespace Directory

def Summary (sorting : Sorting) (d : Directory) : DirectorySummary :=
  ((d.calls.build sorting .empty).Build sorting d.dirModTime d.incompleteReason).1.Summary

/-- The directories somewhere below. -/
def below (d : Directory) : List Directory := d.calls.nodes.map fun p => ⟨p.2,p.1.dirModTime,p.1.incompleteReason⟩

end Directory

end Calls

section Totals

namespace Leaf

def isFile : Leaf → Bool
  | entry de _ => de.Type = .EntryTypeFile
  | failed .. => false

def isSymlink : Leaf → Bool
  | entry de _ => de.Type = .EntryTypeSymlink
  | failed .. => false

def isEntry : Leaf → Bool
  | entry .. => true
  | failed .. => false

def isFatal : Leaf → Bool
  | entry .. => false
  | failed _ isIgnoredError _ => !isIgnoredError

def isIgnored : Leaf → Bool
  | entry .. => false
  | failed _ isIgnoredError _ => isIgnoredError

def size : Leaf → Int
  | entry de _ => if de.Type = .EntryTypeFile then de.FileSize.toInt else 0
  | failed .. => 0

def times : Leaf → List UTCTimestamp
  | entry de _ => [de.ModTime]
  | failed .. => []

def failures : Leaf → List EntryWithError
  | entry .. => []
  | failed relPath _ err => [⟨relPath,err⟩]

end Leaf

/-- Nothing but failures is directly in the directory. -/
def Calls.bare (calls : Calls) : Bool := !calls.tops.any Leaf.isEntry && calls.roots.isEmpty

def Calls.size (calls : Calls) : Int := (calls.leaves.map Leaf.size).sum

def Calls.failures (calls : Calls) : List EntryWithError := calls.leaves.flatMap Leaf.failures

/-- The times of all entries below, and the time of each directory that has none. -/
def Calls.times (calls : Calls) : List UTCTimestamp :=
  calls.leaves.flatMap Leaf.times ++
    calls.nodes.flatMap fun p => p.1.de.ModTime :: if Calls.bare p.2 then [p.1.dirModTime] else []

/-- The time of a directory is that of what is in it. -/
def Directory.times (d : Directory) : List UTCTimestamp := if d.calls.bare then [d.dirModTime] else d.calls.times

/-- A summary of the whole tree below a directory. -/
structure Aggregates (s : DirectorySummary) (d : Directory) : Prop where
  files : s.TotalFileCount = d.calls.leaves.countP Leaf.isFile
  size : s.TotalFileSize.toInt = d.calls.size
  symlinks : s.TotalSymlinkCount = d.calls.leaves.countP Leaf.isSymlink
  dirs : s.TotalDirCount = d.calls.nodes.length + 1
  fatal : s.FatalErrorCount = d.calls.leaves.countP Leaf.isFatal
  ignored : s.IgnoredErrorCount = d.calls.leaves.countP Leaf.isIgnored
  newest : IsGreatest {t | t ∈ d.times} s.MaxModTime
  first : ∃ failures : List EntryWithError, failures.Perm d.calls.failures ∧ failures.Pairwise (fun l r => l.EntryPath ≤ r.EntryPath) ∧
    s.FailedEntries = failures.take MaxFailedEntriesPerDirectorySummary

end Totals

section Steps
variable {b b' : DirManifestBuilder} {de : DirEntry} {f : Calls} {sorting : Sorting}

@[simp] theorem AddEntry_entries : (b.AddEntry de).entries = b.entries ++ [de] := rfl

theorem later_eq_max (t u : UTCTimestamp) : (if u > t then u else t) = max t u := by
  simp only [max_def]
  grind

theorem AddEntry_leaf (other : de.Type ≠ .EntryTypeDirectory) : (b.AddEntry de).summary = { b.summary with
    TotalFileCount := b.summary.TotalFileCount + if de.Type = .EntryTypeFile then 1 else 0
    TotalFileSize := b.summary.TotalFileSize + if de.Type = .EntryTypeFile then de.FileSize else 0
    TotalSymlinkCount := b.summary.TotalSymlinkCount + if de.Type = .EntryTypeSymlink then 1 else 0
    MaxModTime := max b.summary.MaxModTime de.ModTime } := by
  rw [← later_eq_max]
  unfold DirManifestBuilder.AddEntry
  cases kind : de.Type with
  | EntryTypeDirectory => exact absurd kind other
  | _ => simp; split <;> simp

theorem call_summary (l : Leaf) : (l.call b).summary = { b.summary with
    TotalFileCount := b.summary.TotalFileCount + if l.isFile then 1 else 0
    TotalFileSize := b.summary.TotalFileSize + Int64.ofInt l.size
    TotalSymlinkCount := b.summary.TotalSymlinkCount + if l.isSymlink then 1 else 0
    MaxModTime := l.times.foldl max b.summary.MaxModTime
    FatalErrorCount := b.summary.FatalErrorCount + if l.isFatal then 1 else 0
    IgnoredErrorCount := b.summary.IgnoredErrorCount + if l.isIgnored then 1 else 0
    FailedEntries := b.summary.FailedEntries ++ l.failures } := by
  cases l with
  | entry de other =>
    rw [Leaf.call,AddEntry_leaf other]
    by_cases file : de.Type = .EntryTypeFile <;>
      simp [Leaf.isFile,Leaf.size,Leaf.isSymlink,Leaf.times,Leaf.isFatal,Leaf.isIgnored,Leaf.failures,file]
  | failed relPath isIgnoredError err =>
    cases isIgnoredError <;>
      simp [Leaf.call,DirManifestBuilder.AddFailedEntry,Leaf.isFile,Leaf.size,Leaf.isSymlink,Leaf.times,Leaf.isFatal,Leaf.isIgnored,
        Leaf.failures]

theorem call_entries (l : Leaf) : (l.call b).entries = [] ↔ b.entries = [] ∧ l.isEntry = false := by
  cases l <;> simp [Leaf.call,DirManifestBuilder.AddFailedEntry,Leaf.isEntry]

theorem AddEntry_directory (directory : de.Type = .EntryTypeDirectory) (s : DirectorySummary) :
    (b.AddEntry { de with DirSummary := some s }).summary = { b.summary with
      TotalFileCount := b.summary.TotalFileCount + s.TotalFileCount
      TotalFileSize := b.summary.TotalFileSize + s.TotalFileSize
      TotalDirCount := b.summary.TotalDirCount + s.TotalDirCount
      FatalErrorCount := b.summary.FatalErrorCount + s.FatalErrorCount
      IgnoredErrorCount := b.summary.IgnoredErrorCount + s.IgnoredErrorCount
      FailedEntries := b.summary.FailedEntries ++ s.FailedEntries
      MaxModTime := max (max b.summary.MaxModTime de.ModTime) s.MaxModTime } := by
  rw [← later_eq_max,← later_eq_max]
  unfold DirManifestBuilder.AddEntry
  simp only [directory]
  split <;> rfl

theorem Build_summary (b : DirManifestBuilder) (dirModTime : UTCTimestamp) (incompleteReason : Bytes) :
    (b.Build sorting dirModTime incompleteReason).1.Summary = { b.summary with
      TotalDirCount := b.summary.TotalDirCount + 1
      MaxModTime := if b.entries = [] then dirModTime else b.summary.MaxModTime
      IncompleteReason := incompleteReason
      FailedEntries := sorting.sort pathLess b.summary.FailedEntries } := by
  unfold DirManifestBuilder.Build
  simp only [List.length_eq_zero_iff]
  split <;> rfl

/-- What calls make of a builder. -/
structure Adds (f : Calls) (b b' : DirManifestBuilder) : Prop where
  files : b'.summary.TotalFileCount = b.summary.TotalFileCount + f.leaves.countP Leaf.isFile
  size : b'.summary.TotalFileSize = b.summary.TotalFileSize + Int64.ofInt f.size
  symlinks : b'.summary.TotalSymlinkCount = b.summary.TotalSymlinkCount + f.tops.countP Leaf.isSymlink
  dirs : b'.summary.TotalDirCount = b.summary.TotalDirCount + f.nodes.length
  fatal : b'.summary.FatalErrorCount = b.summary.FatalErrorCount + f.leaves.countP Leaf.isFatal
  ignored : b'.summary.IgnoredErrorCount = b.summary.IgnoredErrorCount + f.leaves.countP Leaf.isIgnored
  failed : b'.summary.FailedEntries.Perm (b.summary.FailedEntries ++ f.failures)
  newest : IsGreatest (insert b.summary.MaxModTime {t | t ∈ f.times}) b'.summary.MaxModTime
  entries : b'.entries = [] ↔ b.entries = [] ∧ f.bare

theorem mem_times_leaf {t : UTCTimestamp} {l : Leaf} : t ∈ Calls.times (.leaf l f) ↔ t ∈ l.times ∨ t ∈ f.times := by
  simp [Calls.times,Forest.leaves,Forest.nodes]

theorem mem_times_node {t : UTCTimestamp} {n : Node} {children : Calls} : t ∈ Calls.times (.node n children f) ↔
    t = n.de.ModTime ∨ (children.bare ∧ t = n.dirModTime) ∨ t ∈ children.times ∨ t ∈ f.times := by
  simp only [Calls.times,Forest.leaves,Forest.nodes,List.flatMap_append,List.flatMap_cons,List.mem_append,List.mem_cons,
    List.mem_ite_nil_right]
  tauto

theorem times_bare {calls : Calls} (bare : calls.bare) : calls.times = [] := by
  induction calls with
  | nil => rfl
  | leaf l rest ih =>
    cases l with
    | entry de other => simp [Calls.bare,Forest.tops,Leaf.isEntry] at bare
    | failed relPath isIgnoredError err => exact ih (by simpa [Calls.bare,Forest.tops,Forest.roots,Leaf.isEntry] using bare)
  | node n children rest _ _ => simp [Calls.bare,Forest.roots] at bare

/-- What the summary of a directory says. -/
structure Summarized (d : Directory) (s : DirectorySummary) : Prop where
  files : s.TotalFileCount = d.calls.leaves.countP Leaf.isFile
  size : s.TotalFileSize = Int64.ofInt d.calls.size
  symlinks : s.TotalSymlinkCount = d.calls.tops.countP Leaf.isSymlink
  dirs : s.TotalDirCount = d.calls.nodes.length + 1
  fatal : s.FatalErrorCount = d.calls.leaves.countP Leaf.isFatal
  ignored : s.IgnoredErrorCount = d.calls.leaves.countP Leaf.isIgnored
  failed : s.FailedEntries.Perm d.calls.failures
  sorted : s.FailedEntries.Pairwise fun l r => l.EntryPath ≤ r.EntryPath
  empty : d.calls.bare → s.MaxModTime = d.dirModTime
  newest : ¬ d.calls.bare → IsGreatest (insert 0 {t | t ∈ d.calls.times}) s.MaxModTime
  reason : s.IncompleteReason = d.incompleteReason

theorem Adds.summarized {d : Directory} (adds : Adds d.calls .empty b) :
    Summarized d (b.Build sorting d.dirModTime d.incompleteReason).1.Summary := by
  have nothing : b.entries = [] ↔ d.calls.bare := by simpa [DirManifestBuilder.empty] using adds.entries
  rw [Build_summary]
  constructor
  · simpa [DirManifestBuilder.empty,DirectorySummary.empty] using adds.files
  · simpa [DirManifestBuilder.empty,DirectorySummary.empty] using adds.size
  · simpa [DirManifestBuilder.empty,DirectorySummary.empty] using adds.symlinks
  · simpa [DirManifestBuilder.empty,DirectorySummary.empty] using adds.dirs
  · simpa [DirManifestBuilder.empty,DirectorySummary.empty] using adds.fatal
  · simpa [DirManifestBuilder.empty,DirectorySummary.empty] using adds.ignored
  · exact (sorting.perm _ _).trans adds.failed
  · refine (sorting.sorted pathLess comparing_path _).imp fun order => ?_
    simpa [pathLess] using order
  · exact fun bare => if_pos (nothing.mpr bare)
  · intro bare
    rw [if_neg (mt nothing.mp bare)]
    exact adds.newest
  · rfl

theorem newest_leaf {x m : UTCTimestamp} {l : Leaf} (next : IsGreatest (insert (l.times.foldl max x) {t | t ∈ f.times}) m) :
    IsGreatest (insert x {t | t ∈ Calls.times (.leaf l f)}) m := by
  cases l with
  | failed relPath isIgnoredError err => exact next
  | entry de other =>
    obtain ⟨member,bound⟩ := next
    have direct : max x de.ModTime ≤ m := bound (Set.mem_insert _ _)
    constructor
    · rcases member with rfl | later
      · rcases max_choice x de.ModTime with left | right
        · exact .inl left
        · exact .inr (mem_times_leaf.mpr (.inl (List.mem_singleton.mpr right)))
      · exact .inr (mem_times_leaf.mpr (.inr later))
    · rintro t (rfl | later)
      · exact le_trans (le_max_left _ _) direct
      · rcases mem_times_leaf.mp later with here | later
        · rw [List.mem_singleton.mp here]
          exact le_trans (le_max_right _ _) direct
        · exact bound (.inr later)

theorem newest_node {x m : UTCTimestamp} {n : Node} {children : Calls} {s : DirectorySummary} (since : 0 ≤ x)
    (child : Summarized ⟨children,n.dirModTime,n.incompleteReason⟩ s)
    (next : IsGreatest (insert (max (max x n.de.ModTime) s.MaxModTime) {t | t ∈ f.times}) m) :
    IsGreatest (insert x {t | t ∈ Calls.times (.node n children f)}) m := by
  obtain ⟨member,bound⟩ := next
  have direct : max (max x n.de.ModTime) s.MaxModTime ≤ m := bound (Set.mem_insert _ _)
  simp only [max_le_iff] at direct
  constructor
  · simp only [Set.mem_insert_iff,Set.mem_ofPred_eq,mem_times_node] at member ⊢
    rcases member with here | later
    · by_cases bare : children.bare
      · grind [child.empty bare]
      · have child := (child.newest bare).1
        simp only [Set.mem_insert_iff,Set.mem_ofPred_eq] at child
        grind
    · exact .inr (.inr (.inr (.inr later)))
  · intro t
    simp only [Set.mem_insert_iff,Set.mem_ofPred_eq,mem_times_node]
    rintro (rfl | rfl | ⟨bare,rfl⟩ | below | later)
    · exact direct.1.1
    · exact direct.1.2
    · exact (child.empty bare).symm.le.trans direct.2
    · by_cases bare : children.bare
      · rw [times_bare bare] at below
        exact absurd below List.not_mem_nil
      · exact le_trans ((child.newest bare).2 (.inr below)) direct.2
    · exact bound (.inr later)

theorem Adds.leaf {l : Leaf} (adds : Adds f (l.call b) b') : Adds (.leaf l f) b b' := by
  constructor
  · rw [adds.files,call_summary]
    grind [Forest.leaves]
  · rw [adds.size,call_summary,Int64.add_assoc,← Int64.ofInt_add]
    rfl
  · rw [adds.symlinks,call_summary]
    grind [Forest.tops]
  · rw [adds.dirs,call_summary]
    rfl
  · rw [adds.fatal,call_summary]
    grind [Forest.leaves]
  · rw [adds.ignored,call_summary]
    grind [Forest.leaves]
  · refine adds.failed.trans ?_
    rw [call_summary,List.append_assoc]
    exact .refl _
  · have newest := adds.newest
    rw [call_summary] at newest
    exact newest_leaf newest
  · rw [adds.entries,call_entries]
    simp [Calls.bare,Forest.tops,Forest.roots]
    tauto

theorem Adds.node {n : Node} {children : Calls} {s : DirectorySummary} (since : 0 ≤ b.summary.MaxModTime)
    (child : Summarized ⟨children,n.dirModTime,n.incompleteReason⟩ s)
    (adds : Adds f (b.AddEntry { n.de with DirSummary := some s }) b') : Adds (.node n children f) b b' := by
  constructor
  · rw [adds.files,AddEntry_directory n.directory,child.files]
    simp only [Forest.leaves,List.countP_append]
    omega
  · rw [adds.size,AddEntry_directory n.directory,child.size,Int64.add_assoc,← Int64.ofInt_add]
    simp [Calls.size,Forest.leaves]
  · rw [adds.symlinks,AddEntry_directory n.directory]
    rfl
  · rw [adds.dirs,AddEntry_directory n.directory,child.dirs]
    simp only [Forest.nodes,List.length_cons,List.length_append]
    omega
  · rw [adds.fatal,AddEntry_directory n.directory,child.fatal]
    simp only [Forest.leaves,List.countP_append]
    omega
  · rw [adds.ignored,AddEntry_directory n.directory,child.ignored]
    simp only [Forest.leaves,List.countP_append]
    omega
  · refine adds.failed.trans ?_
    rw [AddEntry_directory n.directory]
    simp only [Calls.failures,Forest.leaves,List.flatMap_append,List.append_assoc]
    exact (child.failed.append_right _).append_left _
  · have newest := adds.newest
    rw [AddEntry_directory n.directory] at newest
    exact newest_node since child newest
  · simp [adds.entries,Calls.bare,Forest.roots]

theorem adds_build (f : Calls) {b : DirManifestBuilder} (since : 0 ≤ b.summary.MaxModTime) : Adds f b (f.build sorting b) := by
  induction f generalizing b with
  | nil => exact ⟨by simp [Calls.build,Forest.leaves],by simp [Calls.build,Calls.size,Forest.leaves],by simp [Calls.build,Forest.tops],
      by simp [Calls.build,Forest.nodes],by simp [Calls.build,Forest.leaves],by simp [Calls.build,Forest.leaves],
      by simp [Calls.build,Calls.failures,Forest.leaves],by simp [Calls.build,Calls.times,Forest.leaves,Forest.nodes],
      by simp [Calls.build,Calls.bare,Forest.tops,Forest.roots]⟩
  | leaf l rest ih =>
    refine .leaf (ih ?_)
    rw [call_summary]
    cases l with
    | entry de other => exact le_max_of_le_left since
    | failed relPath isIgnoredError err => exact since
  | node n children rest below ih =>
    refine .node since (below le_rfl).summarized (ih ?_)
    rw [AddEntry_directory n.directory]
    exact le_max_of_le_left (le_max_of_le_left since)

theorem summarized (d : Directory) : Summarized d (d.Summary sorting) := (adds_build d.calls le_rfl).summarized

end Steps

section Conditions

/-- Symlinks are in no directory below, there are at most as many failures as a summary keeps, a directory with entries has
one from after the epoch, and its files have no more bytes than an integer can count. -/
structure Plain (d : Directory) : Prop where
  symlinks : ∀ d' ∈ d.below, ∀ l ∈ d'.calls.leaves, ¬ l.isSymlink
  few : d.calls.failures.length ≤ MaxFailedEntriesPerDirectorySummary
  since : ¬ d.calls.bare → ∃ t ∈ d.calls.times, 0 ≤ t
  fits : Int64.minValue.toInt ≤ d.calls.size ∧ d.calls.size ≤ Int64.maxValue.toInt

/-- The same but for the order of the failures. -/
structure SameTotals (s s' : DirectorySummary) : Prop where
  same : { s with FailedEntries := [] } = { s' with FailedEntries := [] }
  failed : s.FailedEntries.Perm s'.FailedEntries

variable {d : Directory} {s : DirectorySummary}

namespace Summarized

theorem symlinks_iff (summarized : Summarized d s) : s.TotalSymlinkCount = d.calls.leaves.countP Leaf.isSymlink ↔
    ∀ d' ∈ d.below, ∀ l ∈ d'.calls.leaves, ¬ l.isSymlink := by
  rw [summarized.symlinks,Int.natCast_inj,Forest.countP_leaves]
  simp only [Directory.below,List.forall_mem_map,Bool.not_eq_true]

theorem size_iff (summarized : Summarized d s) : s.TotalFileSize.toInt = d.calls.size ↔
    Int64.minValue.toInt ≤ d.calls.size ∧ d.calls.size ≤ Int64.maxValue.toInt := by
  rw [summarized.size]
  constructor
  · intro same
    rw [← same]
    exact ⟨Int64.minValue_le_toInt _,Int64.toInt_le _⟩
  · rintro ⟨low,high⟩
    exact Int64.toInt_ofInt_of_le low (Int.lt_add_one_of_le high)

theorem newest_iff (summarized : Summarized d s) : IsGreatest {t | t ∈ d.times} s.MaxModTime ↔
    (¬ d.calls.bare → ∃ t ∈ d.calls.times, 0 ≤ t) := by
  by_cases bare : d.calls.bare
  · simp [Directory.times,bare,summarized.empty bare]
  · obtain ⟨member,bound⟩ := summarized.newest bare
    simp only [Directory.times,bare,Bool.false_eq_true,if_false,not_false_eq_true,forall_const]
    constructor
    · exact fun greatest => ⟨_,greatest.1,bound (Set.mem_insert _ _)⟩
    · rintro ⟨t,inside,since⟩
      refine ⟨?_,fun u later => bound (.inr later)⟩
      rcases member with zero | inside'
      · obtain rfl : t = s.MaxModTime := le_antisymm (bound (.inr inside)) (zero.le.trans since)
        exact inside
      · exact inside'

theorem first_iff (summarized : Summarized d s) : (∃ failures : List EntryWithError, failures.Perm d.calls.failures ∧
    failures.Pairwise (fun l r => l.EntryPath ≤ r.EntryPath) ∧ s.FailedEntries = failures.take MaxFailedEntriesPerDirectorySummary) ↔
    d.calls.failures.length ≤ MaxFailedEntriesPerDirectorySummary := by
  constructor
  · rintro ⟨failures,_,_,first⟩
    rw [← summarized.failed.length_eq,first]
    exact List.length_take_le _ _
  · intro few
    refine ⟨s.FailedEntries,summarized.failed,summarized.sorted,(List.take_of_length_le ?_).symm⟩
    rwa [summarized.failed.length_eq]

theorem aggregates_iff (summarized : Summarized d s) : Aggregates s d ↔ Plain d := by
  constructor
  · intro aggregates
    exact ⟨summarized.symlinks_iff.mp aggregates.symlinks,summarized.first_iff.mp aggregates.first,
      summarized.newest_iff.mp aggregates.newest,summarized.size_iff.mp aggregates.size⟩
  · intro plain
    exact ⟨summarized.files,summarized.size_iff.mpr plain.fits,summarized.symlinks_iff.mpr plain.symlinks,summarized.dirs,
      summarized.fatal,summarized.ignored,summarized.newest_iff.mpr plain.since,summarized.first_iff.mpr plain.few⟩

end Summarized

section Order
variable {f g : Calls}

theorem bare_reordered (reordered : f.Reordered g) : f.bare = g.bare := by
  rw [Calls.bare,Calls.bare,reordered.tops_perm.any_eq,List.Perm.isEmpty_eq reordered.roots_perm]

theorem mem_times_reordered (reordered : f.Reordered g) (t : UTCTimestamp) : t ∈ f.times ↔ t ∈ g.times := by
  have nodes := reordered.nodes_perm (fun p => p.1.de.ModTime :: if Calls.bare p.2 then [p.1.dirModTime] else [])
    fun n c d same => by rw [bare_reordered same]
  refine List.Perm.mem_iff (.append (reordered.leaves_perm.flatMap_right _) ?_)
  rw [List.flatMap_def,List.flatMap_def]
  exact nodes.flatten

theorem Summarized.same {dirModTime : UTCTimestamp} {incompleteReason : Bytes} {s s' : DirectorySummary} (reordered : f.Reordered g)
    (left : Summarized ⟨f,dirModTime,incompleteReason⟩ s) (right : Summarized ⟨g,dirModTime,incompleteReason⟩ s') : SameTotals s s' := by
  have leaves := reordered.leaves_perm
  constructor
  · have files := left.files.trans ((congrArg Nat.cast (leaves.countP_eq _)).trans right.files.symm)
    have size := left.size.trans ((congrArg Int64.ofInt (leaves.map Leaf.size).sum_eq).trans right.size.symm)
    have symlinks := left.symlinks.trans ((congrArg Nat.cast (reordered.tops_perm.countP_eq _)).trans right.symlinks.symm)
    have nodes : f.nodes.length = g.nodes.length := by
      simpa using (reordered.nodes_perm Prod.fst fun _ _ _ _ => rfl).length_eq
    have dirs : s.TotalDirCount = s'.TotalDirCount := by rw [left.dirs,right.dirs,nodes]
    have fatal := left.fatal.trans ((congrArg Nat.cast (leaves.countP_eq _)).trans right.fatal.symm)
    have ignored := left.ignored.trans ((congrArg Nat.cast (leaves.countP_eq _)).trans right.ignored.symm)
    have newest : s.MaxModTime = s'.MaxModTime := by
      by_cases bare : f.bare
      · rw [left.empty bare,right.empty (bare_reordered reordered ▸ bare)]
      · refine (left.newest bare).unique ?_
        simp only [mem_times_reordered reordered]
        exact right.newest (bare_reordered reordered ▸ bare)
    have reason := left.reason.trans right.reason.symm
    cases s
    cases s'
    simp_all
  · exact left.failed.trans ((leaves.flatMap_right _).trans right.failed.symm)

end Order

end Conditions

/-- The order of the calls matters only to failures with equal paths, and the summaries of all directories add up all below
them exactly where what is there is plain. -/
theorem Summary_aggregates_iff (sorting : Sorting) (d : Directory) :
    ((∀ d' ∈ d :: d.below, Aggregates (d'.Summary sorting) d') ∧
      ∀ calls, d.calls.Reordered calls → SameTotals (d.Summary sorting) (Directory.Summary sorting { d with calls := calls })) ↔
      ∀ d' ∈ d :: d.below, Plain d' := by
  constructor
  · rintro ⟨aggregates,_⟩ d' member
    exact (summarized d').aggregates_iff.mp (aggregates d' member)
  · intro plain
    constructor
    · intro d' member
      exact (summarized d').aggregates_iff.mpr (plain d' member)
    · intro calls reordered
      exact (summarized d).same reordered (summarized { d with calls := calls })

section Clones
variable {sorting : Sorting} {b : DirManifestBuilder}

/-- A clone is told more as the builder would be. -/
theorem build_append (f g : Calls) : Calls.build sorting (f.append g) b = g.build sorting (f.build sorting b).Clone := by
  induction f generalizing b with
  | nil => rfl
  | leaf l rest ih => exact ih
  | node n children rest _ ih => exact ih

end Clones

section Example

def someEntry («Type» : EntryType) : DirEntry := ⟨[97],«Type»,0o644,3,1,0,0,Objects.EmptyID,none⟩

def linkBelow : Directory where
  calls := .node ⟨someEntry .EntryTypeDirectory,rfl,1,[]⟩ (.leaf (.entry (someEntry .EntryTypeSymlink) nofun) .nil) .nil
  dirModTime := 1
  incompleteReason := []

theorem Summary_forgets_symlinks : ¬ ∀ (sorting : Sorting) (d : Directory), (∀ d' ∈ d :: d.below, Aggregates (d'.Summary sorting) d') ∧
    ∀ calls, d.calls.Reordered calls → SameTotals (d.Summary sorting) (Directory.Summary sorting { d with calls := calls }) := by
  intro all
  have symlinks := ((all .stable linkBelow).1 linkBelow List.mem_cons_self).symlinks
  exact absurd symlinks (by decide)

end Example

end Vbe.Snapshots
