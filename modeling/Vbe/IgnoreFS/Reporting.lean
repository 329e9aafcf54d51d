import Mathlib.Data.List.Flatten
import Vbe.IgnoreFS.Rules

/-! What a directory reports as ignored while it is iterated. Every context on the way up reports by its own verdict, whatever
the contexts below it decide. -/
namespace Vbe.IgnoreFS
open Vbe.Wildcard

variable (u : Unicode)

section Reports

/-- What is ignored, an entry or a directory itself, with its path and the policies of the directory that is iterated. -/
structure Report where
  path : List Rune
  entry : Option Entry
  policyTree : Option Tree

def trimPrefix (path : List Rune) : List Rune := if ['.','/'] <+: path then path.drop 2 else path

/-- The verdict of the layers, the nearest one first, and what they report on the way. -/
def reportingVerdict (path : List Rune) (e : Entry) (policyTree : Option Tree) : List Layer → Option (Bool × List Report)
  | [] => some (true,[])
  | layer :: parents => do
    let (included,reports) ← reportingVerdict path e policyTree parents
    let ignored ← layer.matchers.foldlM (applyMatcher u path e.isDir) (!included)
    if ignored then return (false,reports ++ [⟨trimPrefix path,some e,policyTree⟩]) else return (true,reports)

def cacheDirMarkerFile : List Rune := "CACHEDIR.TAG".toList

def cacheDirMarkerHeader : List Rune := "Signature: 8a477f597d28d172789f06886806bc55".toList

/-- A file that is long enough, can be opened and starts with the header. -/
def isCorrectCacheDirSignature (info : Info) (content : Option (List Rune)) : Bool :=
  cacheDirMarkerHeader.length ≤ info.size && content.any (cacheDirMarkerHeader.isPrefixOf ·)

structure Listing where
  entries : List Entry
  reports : List Report

inductive IterateError
  | context (err : IgnoreError)
  | readDirectory

namespace IgnoreDirectory
variable (d : IgnoreDirectory)

/-- Directories of caches are empty, if the policy in effect says so. -/
def skipCacheDirectory (ignoreCacheDirectories : Option Bool) : Bool :=
  ignoreCacheDirectories.getD true &&
    match d.child cacheDirMarkerFile with
    | some (.file info content) => isCorrectCacheDirSignature info content
    | _ => false

/-- The entries that are listed, and the reports on all of them. An entry is tested by its name, its size and its device. -/
def visit (ic : IgnoreContext) : List Entry → Option Listing
  | [] => some ⟨[],[]⟩
  | e :: entries => do
    let (included,reports) ← reportingVerdict u (d.entryPath e) e d.policyTree (ic.own :: ic.parents)
    let bySize := ¬ (0 < ic.own.maxFileSize ∧ ic.own.maxFileSize < e.info.size)
    let byDevice := ¬ ic.own.oneFileSystem ∨ e.info.dev = d.dev
    let rest ← visit ic entries
    return ⟨if included ∧ bySize ∧ byDevice then e :: rest.entries else rest.entries,reports ++ rest.reports⟩

/-- All of an iteration over a directory with some entries, if that can be read. -/
def Iterate (ignoreCacheDirectories : Option Bool) (inner : Option (List Entry)) : Except IterateError (Option Listing) :=
  if d.skipCacheDirectory ignoreCacheDirectories then .ok (some ⟨[],[⟨trimPrefix d.relativePath,none,d.policyTree⟩]⟩)
  else
    match d.buildContext u with
    | .error err => .error (.context err)
    | .ok ic =>
      match inner with
      | none => .error .readDirectory
      | some entries => .ok (d.visit u ic entries)

end IgnoreDirectory

end Reports

section Counts

/-- How many contexts of a chain ignore the path. -/
def ignoring (path : List Rune) (isDir : Bool) : List Layer → Nat
  | [] => 0
  | layer :: parents => ignoring path isDir parents + if shouldIgnore u path isDir (layer :: parents) = some true then 1 else 0

variable {u} {path : List Rune} {e : Entry} {policyTree : Option Tree}

theorem shouldIgnore_returns (clean : NUL ∉ trimLeadingCurrentDir path) (isDir : Bool) (layers : List Layer) :
    ∃ ignored, shouldIgnore u path isDir layers = some ignored := by
  rw [shouldIgnore_eq,foldlM_applyMatcher clean]
  exact ⟨_,rfl⟩

/-- Each context that ignores the path reports it. -/
theorem reportingVerdict_eq (clean : NUL ∉ trimLeadingCurrentDir path) (layers : List Layer) :
    reportingVerdict u path e policyTree layers = (shouldIgnore u path e.isDir layers).map fun ignored =>
      (!ignored,List.replicate (ignoring u path e.isDir layers) ⟨trimPrefix path,some e,policyTree⟩) := by
  induction layers with
  | nil => rfl
  | cons layer parents ih =>
    obtain ⟨above,returns⟩ := shouldIgnore_returns (u := u) clean e.isDir parents
    obtain ⟨ignored,returns'⟩ := shouldIgnore_returns (u := u) clean e.isDir (layer :: parents)
    have own : layer.matchers.foldlM (applyMatcher u path e.isDir) above = some ignored := by
      rw [shouldIgnore,returns] at returns'
      exact returns'
    rw [reportingVerdict,ih,returns,returns',ignoring,returns']
    simp only [Option.map_some,Option.bind_eq_bind,Option.bind_some,Bool.not_not,own,Option.some.injEq]
    cases ignored with
    | true => simp [List.replicate_succ']
    | false => simp

theorem ignoring_eq_zero (layers : List Layer) :
    ignoring u path e.isDir layers = 0 ↔ ∀ above, above <:+ layers → shouldIgnore u path e.isDir above ≠ some true := by
  induction layers with
  | nil =>
    refine ⟨fun _ above suffix => ?_,fun _ => rfl⟩
    rw [List.suffix_nil.mp suffix,shouldIgnore]
    simp
  | cons layer parents ih =>
    rw [ignoring,Nat.add_eq_zero_iff,ih]
    constructor
    · intro none above suffix
      rcases List.suffix_cons_iff.mp suffix with rfl | further
      · intro ignored
        rw [if_pos ignored] at none
        exact absurd none.2 Nat.one_ne_zero
      · exact none.1 above further
    · intro none
      exact ⟨fun above suffix => none above (suffix.trans (List.suffix_cons _ _)),if_neg (none _ List.suffix_rfl)⟩

end Counts

section Meaning

/-- The entries that are tested during an iteration. -/
def IgnoreDirectory.tested (d : IgnoreDirectory) (ignoreCacheDirectories : Option Bool) (entries : List Entry) : List Entry :=
  if d.skipCacheDirectory ignoreCacheDirectories then [] else entries

def IgnoreDirectory.report (d : IgnoreDirectory) (e : Entry) : Report := ⟨trimPrefix (d.entryPath e),some e,d.policyTree⟩

/-- Some numbers of times for each entry. -/
def IgnoreDirectory.reported (d : IgnoreDirectory) (entries : List Entry) (times : Entry → Nat) : List Report :=
  entries.flatMap fun e => List.replicate (times e) (d.report e)

/-- The reports on entries are one for each that is hidden by its name, and none for one that is listed. -/
def ReportedOnce (d : IgnoreDirectory) (ic : IgnoreContext) (entries : List Entry) (listing : Listing) : Prop :=
  ∃ times, listing.reports.filter (·.entry.isSome) = d.reported entries times ∧
    ∀ e ∈ entries, (ic.shouldIncludeByName u (d.entryPath e) e = some false → times e = 1) ∧
      (e ∈ listing.entries → times e = 0)

/-- The rules of a context above ignore the entry, as long as those below do not count. -/
def HiddenAbove (d : IgnoreDirectory) (ic : IgnoreContext) (e : Entry) : Prop :=
  ∃ layers, layers <:+ ic.parents ∧ shouldIgnore u (d.entryPath e) e.isDir layers = some true

/-- The entry is left out for its size or its device. -/
def LeftOut (d : IgnoreDirectory) (ic : IgnoreContext) (e : Entry) : Prop :=
  (0 < ic.own.maxFileSize ∧ ic.own.maxFileSize < e.info.size) ∨ (ic.own.oneFileSystem = true ∧ e.info.dev ≠ d.dev)

variable {u} {d : IgnoreDirectory} {ic : IgnoreContext} {entries : List Entry}

theorem included_iff (e : Entry) : d.included u ic e = some true ↔
    ic.shouldIncludeByName u (d.entryPath e) e = some true ∧ ¬ LeftOut d ic e := by
  rw [IgnoreDirectory.included,LeftOut]
  cases ic.shouldIncludeByName u (d.entryPath e) e with
  | none => simp
  | some byName =>
    cases byName with
    | false => simp
    | true => simp [-not_and,not_and_or]

theorem reported_cons (e : Entry) (entries : List Entry) (times : Entry → Nat) :
    d.reported (e :: entries) times = List.replicate (times e) (d.report e) ++ d.reported entries times := List.flatMap_cons

/-- A visit lists the entries that are shown, and reports each entry as often as contexts ignore it. -/
theorem visit_eq (clean : NUL ∉ d.relativePath) (ic : IgnoreContext) (entries : List Entry) :
    d.visit u ic entries = some ⟨entries.filter fun e => d.included u ic e = some true,
      d.reported entries fun e => ignoring u (d.entryPath e) e.isDir (ic.own :: ic.parents)⟩ := by
  induction entries with
  | nil => rfl
  | cons e entries ih =>
    have clean' := NUL_notMem_trim (NUL_notMem_entryPath clean e)
    obtain ⟨ignored,returns⟩ := shouldIgnore_returns (u := u) clean' e.isDir (ic.own :: ic.parents)
    have byName : ic.shouldIncludeByName u (d.entryPath e) e = some (!ignored) := by
      rw [IgnoreContext.shouldIncludeByName,returns]
      rfl
    have verdict : reportingVerdict u (d.entryPath e) e d.policyTree (ic.own :: ic.parents) = _ := reportingVerdict_eq clean' _
    rw [returns,Option.map_some] at verdict
    have shown : d.included u ic e = some (decide ((!ignored) = true ∧
        ¬ (0 < ic.own.maxFileSize ∧ ic.own.maxFileSize < e.info.size) ∧ (¬ ic.own.oneFileSystem ∨ e.info.dev = d.dev))) := by
      rw [IgnoreDirectory.included,byName]
      rfl
    rw [IgnoreDirectory.visit,verdict,ih,List.filter_cons,shown,reported_cons]
    simp only [Option.bind_eq_bind,Option.bind_some,Option.some.injEq,decide_eq_true_eq]
    rfl

/-- Each entry is reported once more than contexts above ignore it, if it is hidden, and else as often. -/
theorem ignoring_own (e : Entry) : ignoring u (d.entryPath e) e.isDir (ic.own :: ic.parents) =
    ignoring u (d.entryPath e) e.isDir ic.parents + if ic.shouldIncludeByName u (d.entryPath e) e = some false then 1 else 0 := by
  rw [ignoring,IgnoreContext.shouldIncludeByName]
  congr 1
  cases shouldIgnore u (d.entryPath e) e.isDir (ic.own :: ic.parents) with
  | none => simp
  | some ignored => cases ignored <;> simp

theorem hiddenAbove_iff (e : Entry) : HiddenAbove u d ic e ↔ ignoring u (d.entryPath e) e.isDir ic.parents ≠ 0 := by
  rw [HiddenAbove,Ne,ignoring_eq_zero,not_forall]
  simp only [not_forall,Decidable.not_not,exists_prop]

/-- The reports on an entry are told from those on others. -/
theorem count_reported [DecidableEq Entry] [DecidableEq Report] (times : Entry → Nat) (e : Entry) :
    (d.reported entries times).count (d.report e) = entries.count e * times e := by
  induction entries with
  | nil => simp [IgnoreDirectory.reported]
  | cons first entries ih =>
    rw [reported_cons,List.count_append,ih,List.count_replicate,List.count_cons,Nat.add_mul,Nat.add_comm]
    by_cases same : first = e
    · simp [same]
    · have different : d.report first ≠ d.report e := fun equal => same (Option.some.inj (congrArg Report.entry equal))
      simp [same,different]

theorem reported_inj {times times' : Entry → Nat} (equal : d.reported entries times = d.reported entries times') :
    ∀ e ∈ entries, times e = times' e := by
  classical
  intro e member
  have counted := congrArg (List.count (d.report e)) equal
  rw [count_reported,count_reported] at counted
  exact Nat.eq_of_mul_eq_mul_left (List.count_pos_iff.mpr member) counted

theorem reported_entries (times : Entry → Nat) :
    (d.reported entries times).filter (·.entry.isSome) = d.reported entries times := by
  rw [List.filter_eq_self,IgnoreDirectory.reported]
  intro report member
  obtain ⟨e,_,one⟩ := List.mem_flatMap.mp member
  rw [List.eq_of_mem_replicate one]
  rfl

/-- One entry is reported as it should be where no context above ignores it, or it is neither hidden by its name nor listed. -/
theorem once_iff (clean : NUL ∉ d.relativePath) (e : Entry) :
    ((ic.shouldIncludeByName u (d.entryPath e) e = some false → ignoring u (d.entryPath e) e.isDir (ic.own :: ic.parents) = 1) ∧
        (d.included u ic e = some true → ignoring u (d.entryPath e) e.isDir (ic.own :: ic.parents) = 0)) ↔
      (HiddenAbove u d ic e → ic.shouldIncludeByName u (d.entryPath e) e = some true ∧ LeftOut d ic e) := by
  obtain ⟨ignored,returns⟩ := shouldIgnore_returns (u := u) (NUL_notMem_trim (NUL_notMem_entryPath clean e)) e.isDir
    (ic.own :: ic.parents)
  have byName : ic.shouldIncludeByName u (d.entryPath e) e = some (!ignored) := by
    rw [IgnoreContext.shouldIncludeByName,returns]
    rfl
  rw [ignoring_own,hiddenAbove_iff,included_iff,byName]
  cases ignored with
  | true => simp
  | false =>
    simp only [Bool.not_false,Option.some.injEq,Bool.true_eq_false,if_false,true_and,Nat.add_zero,false_implies]
    exact not_imp_comm

end Meaning

section Claims

/-- The callback is told of each entry that is hidden by its name once, and of none that is listed,
exactly where the rules of no context above ignore an entry that does not pass its own rules only to be left out
for its size or its device. -/
theorem reported_once_iff (u : Unicode) (d : IgnoreDirectory) (above : List Level) (reached : Reached u d above)
    (ic : IgnoreContext) (built : d.buildContext u = .ok ic) (ignoreCacheDirectories : Option Bool) (entries : List Entry) :
    ∃ listing, d.Iterate u ignoreCacheDirectories (some entries) = .ok (some listing) ∧
      (ReportedOnce u d ic (d.tested ignoreCacheDirectories entries) listing ↔
        ∀ e ∈ d.tested ignoreCacheDirectories entries, HiddenAbove u d ic e →
          ic.shouldIncludeByName u (d.entryPath e) e = some true ∧ LeftOut d ic e) := by
  have clean := reached.rules.1
  by_cases skipped : d.skipCacheDirectory ignoreCacheDirectories = true
  · rw [IgnoreDirectory.Iterate,IgnoreDirectory.tested,if_pos skipped,if_pos skipped]
    refine ⟨_,rfl,?_⟩
    have once : ReportedOnce u d ic [] ⟨[],[⟨trimPrefix d.relativePath,none,d.policyTree⟩]⟩ := ⟨fun _ => 0,rfl,by simp⟩
    simp [once]
  · rw [IgnoreDirectory.Iterate,IgnoreDirectory.tested,if_neg skipped,if_neg skipped,built]
    refine ⟨_,congrArg Except.ok (visit_eq clean ic entries),?_⟩
    have listed (e : Entry) (member : e ∈ entries) :
        e ∈ entries.filter (fun e => d.included u ic e = some true) ↔ d.included u ic e = some true := by
      simp [member]
    rw [ReportedOnce,reported_entries]
    constructor
    · intro once e member
      obtain ⟨times,reports,numbers⟩ := once
      rw [← once_iff clean,reported_inj reports e member,← listed e member]
      exact numbers e member
    · intro unseen
      refine ⟨_,rfl,fun e member => ?_⟩
      rw [listed e member]
      exact (once_iff clean e).mpr (unseen e member)

/-- A directory that shows 'a' again, in one whose policy hides 'a' everywhere. -/
def showsA : FilesPolicy := ⟨[['!','a']],false,[],false,0,none⟩
def overruling : Tree := .node hidesA false [(['d'],.node showsA false [])]

def ruleNotA : WildcardMatcher :=
  ⟨['!','a'],[.dirSep,.rune 'd',.dirSep,.star true,.dirSep,.rune 'a'],false,true,⟨false,['/','d']⟩⟩

def upper : IgnoreDirectory :=
  New 0 (fun name => if name = ['d'] then some (.directory infoD nothing) else none) (some overruling)
def lower : IgnoreDirectory := upper.wrap topContext infoD nothing
def lowerContext : IgnoreContext := ⟨⟨[],[ruleNotA],0,false⟩,[topContext.own,rootContext.own]⟩

theorem lower_reached : Reached ASCII lower [⟨false,[ruleA]⟩] :=
  .wrap (.new ..) (by decide +kernel) (by decide +kernel) (if_pos rfl)

theorem reported_once_lower : ∃ listing, lower.Iterate ASCII none (some [fileA]) = .ok (some listing) ∧
    (ReportedOnce ASCII lower lowerContext (lower.tested none [fileA]) listing ↔
      ∀ e ∈ lower.tested none [fileA], HiddenAbove ASCII lower lowerContext e →
        lowerContext.shouldIncludeByName ASCII (lower.entryPath e) e = some true ∧ LeftOut lower lowerContext e) :=
  reported_once_iff ASCII lower [⟨false,[ruleA]⟩] lower_reached lowerContext (by decide +kernel) none [fileA]

/-- A file that is listed and reported. -/
theorem listed_reported : Reached ASCII lower [⟨false,[ruleA]⟩] ∧ lower.buildContext ASCII = .ok lowerContext ∧
    lower.Iterate ASCII none (some [fileA]) = .ok (some ⟨[fileA],[lower.report fileA]⟩) ∧
    ¬ ReportedOnce ASCII lower lowerContext (lower.tested none [fileA]) ⟨[fileA],[lower.report fileA]⟩ := by
  refine ⟨lower_reached,by decide +kernel,rfl,?_⟩
  intro once
  obtain ⟨times,reports,numbers⟩ := once
  have untold := (numbers fileA (List.mem_singleton_self _)).2 (List.mem_singleton_self _)
  have alone : lower.tested none [fileA] = [fileA] := rfl
  rw [alone,reported_cons,untold] at reports
  exact List.cons_ne_nil _ _ reports

end Claims

end Vbe.IgnoreFS
