import Mathlib.Data.List.Sort
import Mathlib.Data.List.Destutter
import Mathlib.Data.String.Basic
import Vbe.Policy.Policy

/-! Policies of a source, from the most specific to the most general, merged into one. -/
namespace Vbe.Policies
open Vbe.Policy (OptionalInt SourceInfo)

section Helpers

/-- A value that is not set yet is taken over, and its source noted. -/
def mergeUnset {α : Type} (isSet : α → Bool) (target src : α) (definition si : SourceInfo) : α × SourceInfo :=
  if !isSet target && isSet src then (src,si) else (target,definition)

def mergeOptionalBool (target src : OptionalBool) (definition si : SourceInfo) : OptionalBool × SourceInfo :=
  mergeUnset Option.isSome target src definition si

def mergeOptionalInt (target src : OptionalInt) (definition si : SourceInfo) : OptionalInt × SourceInfo :=
  mergeUnset Option.isSome target src definition si

def mergeOptionalInt64 (target src : OptionalInt64) (definition si : SourceInfo) : OptionalInt64 × SourceInfo :=
  mergeUnset Option.isSome target src definition si

def nonempty {α : Type} (l : List α) : Bool := !l.isEmpty

def mergeStringsReplace (target src : List String) (definition si : SourceInfo) : List String × SourceInfo :=
  mergeUnset nonempty target src definition si

def mergeString (target src : String) (definition si : SourceInfo) : String × SourceInfo :=
  mergeUnset (· != "") target src definition si

def mergeCompressionName (target src : String) (definition si : SourceInfo) : String × SourceInfo :=
  mergeUnset (· != "") target src definition si

def mergeInt64 (target src : Int64) (definition si : SourceInfo) : Int64 × SourceInfo :=
  mergeUnset (· != 0) target src definition si

def mergeBool (target src : Bool) (definition si : SourceInfo) : Bool × SourceInfo := mergeUnset id target src definition si

def mergeStringList (target src : List String) (definition si : SourceInfo) : List String × SourceInfo :=
  mergeUnset nonempty target src definition si

def mergeLogLevel (target src : Option LogDetail) (definition si : SourceInfo) : Option LogDetail × SourceInfo :=
  mergeUnset Option.isSome target src definition si

def mergeActionCommand (target src : Option ActionCommand) (definition si : SourceInfo) : Option ActionCommand × SourceInfo :=
  mergeUnset Option.isSome target src definition si

def mergeOSSnapshotMode (target src : Option OSSnapshotMode) (definition si : SourceInfo) : Option OSSnapshotMode × SourceInfo :=
  mergeUnset Option.isSome target src definition si

/-- A list with the flag that ends its merges, and its source. -/
structure Guarded (α : Type) where
  target : List α
  targetNoParent : Bool
  definition : SourceInfo

/-- The keys of the map `merged`, sorted. -/
def mergeStrings (target : List String) (targetNoParent : Bool) (src : List String) (noParent : Bool)
    (definition si : SourceInfo) : Guarded String :=
  if targetNoParent then ⟨target,targetNoParent,definition⟩
  else ⟨(target ++ src).dedup.insertionSort (· ≤ ·),noParent,if src = [] then definition else si⟩

def TimeOfDay.le (a b : TimeOfDay) : Bool := if a.hour ≠ b.hour then a.hour < b.hour else a.minute ≤ b.minute

def SortAndDedupeTimesOfDay (tod : List TimeOfDay) : List TimeOfDay :=
  (tod.insertionSort fun a b => a.le b).destutter (· ≠ ·)

end Helpers

def RetentionPolicy.Merge (r src : RetentionPolicy) (d : RetentionPolicyDefinition) (si : SourceInfo) :
    RetentionPolicy × RetentionPolicyDefinition :=
  let latest := mergeOptionalInt r.keepLatest src.keepLatest d.keepLatest si
  let hourly := mergeOptionalInt r.keepHourly src.keepHourly d.keepHourly si
  let daily := mergeOptionalInt r.keepDaily src.keepDaily d.keepDaily si
  let weekly := mergeOptionalInt r.keepWeekly src.keepWeekly d.keepWeekly si
  let monthly := mergeOptionalInt r.keepMonthly src.keepMonthly d.keepMonthly si
  let annual := mergeOptionalInt r.keepAnnual src.keepAnnual d.keepAnnual si
  let identical := mergeOptionalBool r.ignoreIdenticalSnapshots src.ignoreIdenticalSnapshots d.ignoreIdenticalSnapshots si
  (⟨⟨latest.1,hourly.1,daily.1,weekly.1,monthly.1,annual.1⟩,identical.1⟩,
    ⟨latest.2,hourly.2,daily.2,weekly.2,monthly.2,annual.2,identical.2⟩)

def FilesPolicy.Merge (p src : FilesPolicy) (d : FilesPolicyDefinition) (si : SourceInfo) : FilesPolicy × FilesPolicyDefinition :=
  let rules := mergeStringList p.ignoreRules src.ignoreRules d.ignoreRules si
  let noParentRules := mergeBool p.noParentIgnoreRules src.noParentIgnoreRules d.noParentIgnoreRules si
  let dotFiles := mergeStringsReplace p.dotIgnoreFiles src.dotIgnoreFiles d.dotIgnoreFiles si
  let noParentDotFiles := mergeBool p.noParentDotIgnoreFiles src.noParentDotIgnoreFiles d.noParentDotIgnoreFiles si
  let cacheDirs := mergeOptionalBool p.ignoreCacheDirectories src.ignoreCacheDirectories d.ignoreCacheDirectories si
  let maxSize := mergeInt64 p.maxFileSize src.maxFileSize d.maxFileSize si
  let oneFS := mergeOptionalBool p.oneFileSystem src.oneFileSystem d.oneFileSystem si
  (⟨rules.1,noParentRules.1,dotFiles.1,noParentDotFiles.1,cacheDirs.1,maxSize.1,oneFS.1⟩,
    ⟨rules.2,noParentRules.2,dotFiles.2,noParentDotFiles.2,cacheDirs.2,maxSize.2,oneFS.2⟩)

def ErrorHandlingPolicy.Merge (p src : ErrorHandlingPolicy) (d : ErrorHandlingPolicyDefinition) (si : SourceInfo) :
    ErrorHandlingPolicy × ErrorHandlingPolicyDefinition :=
  let files := mergeOptionalBool p.ignoreFileErrors src.ignoreFileErrors d.ignoreFileErrors si
  let dirs := mergeOptionalBool p.ignoreDirectoryErrors src.ignoreDirectoryErrors d.ignoreDirectoryErrors si
  let unknown := mergeOptionalBool p.ignoreUnknownTypes src.ignoreUnknownTypes d.ignoreUnknownTypes si
  (⟨files.1,dirs.1,unknown.1⟩,⟨files.2,dirs.2,unknown.2⟩)

/-- The source of times of day is noted also when the flag keeps them out. -/
def SchedulingPolicy.Merge (p src : SchedulingPolicy) (d : SchedulingPolicyDefinition) (si : SourceInfo) :
    SchedulingPolicy × SchedulingPolicyDefinition :=
  let interval := mergeInt64 p.intervalSeconds src.intervalSeconds d.intervalSeconds si
  let times :=
    if src.timesOfDay.length > 0 then
      (if !p.noParentTimesOfDay then SortAndDedupeTimesOfDay (src.timesOfDay ++ p.timesOfDay) else p.timesOfDay,si)
    else (p.timesOfDay,d.timesOfDay)
  let cron := mergeStringList p.cron src.cron d.cron si
  let noParent := if src.noParentTimesOfDay then src.noParentTimesOfDay else p.noParentTimesOfDay
  let manual := mergeBool p.manual src.manual d.manual si
  let missed := mergeOptionalBool p.runMissed src.runMissed d.runMissed si
  (⟨interval.1,times.1,noParent,manual.1,cron.1,missed.1⟩,⟨interval.2,times.2,cron.2,manual.2,missed.2⟩)

def UploadPolicy.Merge (p src : UploadPolicy) (d : UploadPolicyDefinition) (si : SourceInfo) :
    UploadPolicy × UploadPolicyDefinition :=
  let snapshots := mergeOptionalInt p.maxParallelSnapshots src.maxParallelSnapshots d.maxParallelSnapshots si
  let reads := mergeOptionalInt p.maxParallelFileReads src.maxParallelFileReads d.maxParallelFileReads si
  let above := mergeOptionalInt64 p.parallelUploadAboveSize src.parallelUploadAboveSize d.parallelUploadAboveSize si
  (⟨snapshots.1,reads.1,above.1⟩,⟨snapshots.2,reads.2,above.2⟩)

def CompressionPolicy.Merge (p src : CompressionPolicy) (d : CompressionPolicyDefinition) (si : SourceInfo) :
    CompressionPolicy × CompressionPolicyDefinition :=
  let name := mergeCompressionName p.compressorName src.compressorName d.compressorName si
  let minSize := mergeInt64 p.minSize src.minSize d.minSize si
  let maxSize := mergeInt64 p.maxSize src.maxSize d.maxSize si
  let only := mergeStrings p.onlyCompress p.noParentOnlyCompress src.onlyCompress src.noParentOnlyCompress d.onlyCompress si
  let never := mergeStrings p.neverCompress p.noParentNeverCompress src.neverCompress src.noParentNeverCompress d.neverCompress si
  (⟨name.1,only.target,only.targetNoParent,never.target,never.targetNoParent,minSize.1,maxSize.1⟩,
    ⟨name.2,only.definition,never.definition,minSize.2,maxSize.2⟩)

def SplitterPolicy.Merge (p src : SplitterPolicy) (d : SplitterPolicyDefinition) (si : SourceInfo) :
    SplitterPolicy × SplitterPolicyDefinition :=
  let algorithm := mergeString p.algorithm src.algorithm d.algorithm si
  (⟨algorithm.1⟩,⟨algorithm.2⟩)

def ActionsPolicy.Merge (p src : ActionsPolicy) (d : ActionsPolicyDefinition) (si : SourceInfo) :
    ActionsPolicy × ActionsPolicyDefinition :=
  let before := mergeActionCommand p.beforeSnapshotRoot src.beforeSnapshotRoot d.beforeSnapshotRoot si
  let after := mergeActionCommand p.afterSnapshotRoot src.afterSnapshotRoot d.afterSnapshotRoot si
  ({ p with beforeSnapshotRoot := before.1, afterSnapshotRoot := after.1 },⟨before.2,after.2⟩)

def ActionsPolicy.MergeNonInheritable (p src : ActionsPolicy) : ActionsPolicy :=
  { p with beforeFolder := src.beforeFolder, afterFolder := src.afterFolder }

def VolumeShadowCopyPolicy.Merge (p src : VolumeShadowCopyPolicy) (d : VolumeShadowCopyPolicyDefinition) (si : SourceInfo) :
    VolumeShadowCopyPolicy × VolumeShadowCopyPolicyDefinition :=
  let enable := mergeOSSnapshotMode p.enable src.enable d.enable si
  (⟨enable.1⟩,⟨enable.2⟩)

def OSSnapshotPolicy.Merge (p src : OSSnapshotPolicy) (d : OSSnapshotPolicyDefinition) (si : SourceInfo) :
    OSSnapshotPolicy × OSSnapshotPolicyDefinition :=
  let copy := p.volumeShadowCopy.Merge src.volumeShadowCopy d.volumeShadowCopy si
  (⟨copy.1⟩,⟨copy.2⟩)

def DirLoggingPolicy.Merge (p src : DirLoggingPolicy) (d : DirLoggingPolicyDefinition) (si : SourceInfo) :
    DirLoggingPolicy × DirLoggingPolicyDefinition :=
  let snapshotted := mergeLogLevel p.snapshotted src.snapshotted d.snapshotted si
  let ignored := mergeLogLevel p.ignored src.ignored d.ignored si
  (⟨snapshotted.1,ignored.1⟩,⟨snapshotted.2,ignored.2⟩)

def EntryLoggingPolicy.Merge (p src : EntryLoggingPolicy) (d : EntryLoggingPolicyDefinition) (si : SourceInfo) :
    EntryLoggingPolicy × EntryLoggingPolicyDefinition :=
  let snapshotted := mergeLogLevel p.snapshotted src.snapshotted d.snapshotted si
  let ignored := mergeLogLevel p.ignored src.ignored d.ignored si
  let hit := mergeLogLevel p.cacheHit src.cacheHit d.cacheHit si
  let miss := mergeLogLevel p.cacheMiss src.cacheMiss d.cacheMiss si
  (⟨snapshotted.1,ignored.1,hit.1,miss.1⟩,⟨snapshotted.2,ignored.2,hit.2,miss.2⟩)

def LoggingPolicy.Merge (p src : LoggingPolicy) (d : LoggingPolicyDefinition) (si : SourceInfo) :
    LoggingPolicy × LoggingPolicyDefinition :=
  let directories := p.directories.Merge src.directories d.directories si
  let entries := p.entries.Merge src.entries d.entries si
  (⟨directories.1,entries.1⟩,⟨directories.2,entries.2⟩)

section MergePolicies

/-- The variables `merged` and `def`. -/
structure Merged where
  merged : Policy
  definition : Definition

/-- The merges that the loop makes for each policy, and after it for the defaults. -/
def Merged.mergeOne (m : Merged) (p : Policy) (si : SourceInfo) : Merged :=
  let retention := m.merged.retention.Merge p.retention m.definition.retention si
  let files := m.merged.files.Merge p.files m.definition.files si
  let errorHandling := m.merged.errorHandling.Merge p.errorHandling m.definition.errorHandling si
  let scheduling := m.merged.scheduling.Merge p.scheduling m.definition.scheduling si
  let upload := m.merged.upload.Merge p.upload m.definition.upload si
  let compression := m.merged.compression.Merge p.compression m.definition.compression si
  let splitter := m.merged.splitter.Merge p.splitter m.definition.splitter si
  let actions := m.merged.actions.Merge p.actions m.definition.actions si
  let osSnapshots := m.merged.osSnapshots.Merge p.osSnapshots m.definition.osSnapshots si
  let logging := m.merged.logging.Merge p.logging m.definition.logging si
  ⟨{ m.merged with
      retention := retention.1
      files := files.1
      errorHandling := errorHandling.1
      scheduling := scheduling.1
      upload := upload.1
      compression := compression.1
      splitter := splitter.1
      actions := actions.1
      osSnapshots := osSnapshots.1
      logging := logging.1 },
    ⟨retention.2,files.2,errorHandling.2,scheduling.2,compression.2,splitter.2,actions.2,osSnapshots.2,logging.2,upload.2⟩⟩

/-- The loop, and whether it returned from inside. -/
def mergeLoop : Merged → List Policy → Merged × Bool
  | m, [] => (m,false)
  | m, p :: rest => if p.noParent then (m.mergeOne p p.Target,true) else mergeLoop (m.mergeOne p p.Target) rest

def MergePolicies (policies : List Policy) (si : SourceInfo) : Policy × Definition :=
  match mergeLoop ⟨.blank (LabelsForSource si),.blank⟩ policies with
  | (m,true) => (m.merged,m.definition)
  | (m,false) =>
    let m := m.mergeOne DefaultPolicy GlobalPolicySourceInfo
    match policies with
    | [] => (m.merged,m.definition)
    | first :: _ => ({ m.merged with actions := m.merged.actions.MergeNonInheritable first.actions },m.definition)

end MergePolicies

section Fields

/-- A field that the first policy to set it decides, and the record of its source. -/
structure Field where
  {α : Type}
  value : Policy → α
  definition : Definition → SourceInfo
  isSet : α → Bool

def fields : List Field :=
  [⟨fun p => p.retention.keepLatest,fun d => d.retention.keepLatest,Option.isSome⟩,
    ⟨fun p => p.retention.keepHourly,fun d => d.retention.keepHourly,Option.isSome⟩,
    ⟨fun p => p.retention.keepDaily,fun d => d.retention.keepDaily,Option.isSome⟩,
    ⟨fun p => p.retention.keepWeekly,fun d => d.retention.keepWeekly,Option.isSome⟩,
    ⟨fun p => p.retention.keepMonthly,fun d => d.retention.keepMonthly,Option.isSome⟩,
    ⟨fun p => p.retention.keepAnnual,fun d => d.retention.keepAnnual,Option.isSome⟩,
    ⟨fun p => p.retention.ignoreIdenticalSnapshots,fun d => d.retention.ignoreIdenticalSnapshots,Option.isSome⟩,
    ⟨fun p => p.files.ignoreRules,fun d => d.files.ignoreRules,nonempty⟩,
    ⟨fun p => p.files.noParentIgnoreRules,fun d => d.files.noParentIgnoreRules,id⟩,
    ⟨fun p => p.files.dotIgnoreFiles,fun d => d.files.dotIgnoreFiles,nonempty⟩,
    ⟨fun p => p.files.noParentDotIgnoreFiles,fun d => d.files.noParentDotIgnoreFiles,id⟩,
    ⟨fun p => p.files.ignoreCacheDirectories,fun d => d.files.ignoreCacheDirectories,Option.isSome⟩,
    ⟨fun p => p.files.maxFileSize,fun d => d.files.maxFileSize,(· != 0)⟩,
    ⟨fun p => p.files.oneFileSystem,fun d => d.files.oneFileSystem,Option.isSome⟩,
    ⟨fun p => p.errorHandling.ignoreFileErrors,fun d => d.errorHandling.ignoreFileErrors,Option.isSome⟩,
    ⟨fun p => p.errorHandling.ignoreDirectoryErrors,fun d => d.errorHandling.ignoreDirectoryErrors,Option.isSome⟩,
    ⟨fun p => p.errorHandling.ignoreUnknownTypes,fun d => d.errorHandling.ignoreUnknownTypes,Option.isSome⟩,
    ⟨fun p => p.scheduling.intervalSeconds,fun d => d.scheduling.intervalSeconds,(· != 0)⟩,
    ⟨fun p => p.scheduling.cron,fun d => d.scheduling.cron,nonempty⟩,
    ⟨fun p => p.scheduling.manual,fun d => d.scheduling.manual,id⟩,
    ⟨fun p => p.scheduling.runMissed,fun d => d.scheduling.runMissed,Option.isSome⟩,
    ⟨fun p => p.upload.maxParallelSnapshots,fun d => d.upload.maxParallelSnapshots,Option.isSome⟩,
    ⟨fun p => p.upload.maxParallelFileReads,fun d => d.upload.maxParallelFileReads,Option.isSome⟩,
    ⟨fun p => p.upload.parallelUploadAboveSize,fun d => d.upload.parallelUploadAboveSize,Option.isSome⟩,
    ⟨fun p => p.compression.compressorName,fun d => d.compression.compressorName,(· != "")⟩,
    ⟨fun p => p.compression.minSize,fun d => d.compression.minSize,(· != 0)⟩,
    ⟨fun p => p.compression.maxSize,fun d => d.compression.maxSize,(· != 0)⟩,
    ⟨fun p => p.splitter.algorithm,fun d => d.splitter.algorithm,(· != "")⟩,
    ⟨fun p => p.actions.beforeSnapshotRoot,fun d => d.actions.beforeSnapshotRoot,Option.isSome⟩,
    ⟨fun p => p.actions.afterSnapshotRoot,fun d => d.actions.afterSnapshotRoot,Option.isSome⟩,
    ⟨fun p => p.osSnapshots.volumeShadowCopy.enable,fun d => d.osSnapshots.volumeShadowCopy.enable,Option.isSome⟩,
    ⟨fun p => p.logging.directories.snapshotted,fun d => d.logging.directories.snapshotted,Option.isSome⟩,
    ⟨fun p => p.logging.directories.ignored,fun d => d.logging.directories.ignored,Option.isSome⟩,
    ⟨fun p => p.logging.entries.snapshotted,fun d => d.logging.entries.snapshotted,Option.isSome⟩,
    ⟨fun p => p.logging.entries.ignored,fun d => d.logging.entries.ignored,Option.isSome⟩,
    ⟨fun p => p.logging.entries.cacheHit,fun d => d.logging.entries.cacheHit,Option.isSome⟩,
    ⟨fun p => p.logging.entries.cacheMiss,fun d => d.logging.entries.cacheMiss,Option.isSome⟩]

/-- A list whose merges a flag ends, and the record of its source. -/
structure ListField where
  {α : Type}
  value : Policy → List α
  noParent : Policy → Bool
  definition : Definition → SourceInfo

def timesOfDay : ListField :=
  ⟨fun p => p.scheduling.timesOfDay,fun p => p.scheduling.noParentTimesOfDay,fun d => d.scheduling.timesOfDay⟩

def onlyCompress : ListField :=
  ⟨fun p => p.compression.onlyCompress,fun p => p.compression.noParentOnlyCompress,fun d => d.compression.onlyCompress⟩

def neverCompress : ListField :=
  ⟨fun p => p.compression.neverCompress,fun p => p.compression.noParentNeverCompress,fun d => d.compression.neverCompress⟩

def Field.ofMerged (f : Field) (m : Merged) : f.α × SourceInfo := (f.value m.merged,f.definition m.definition)

/-- One merge does to the field what the helper for unset values does. -/
def Field.Follows (f : Field) : Prop :=
  ∀ (m : Merged) (p : Policy) (si : SourceInfo), f.ofMerged (m.mergeOne p si) = mergeUnset f.isSet (f.value m.merged) (f.value p) (f.definition m.definition) si

def Field.Inherited (f : Field) : Prop :=
  ∀ p : Policy, ∀ a, f.value { p with actions := p.actions.MergeNonInheritable a } = f.value p

theorem fields_follow : ∀ f ∈ fields, f.Follows := by
  simp only [fields,List.forall_mem_cons,List.not_mem_nil,false_implies,implies_true,and_true]
  and_intros
  all_goals exact fun m p si => rfl

theorem fields_inherited : ∀ f ∈ fields, f.Inherited := by
  simp only [fields,List.forall_mem_cons,List.not_mem_nil,false_implies,implies_true,and_true]
  and_intros
  all_goals exact fun p a => rfl

theorem fields_blank : ∀ f ∈ fields, ∀ labels,
    f.isSet (f.value (.blank labels)) = false ∧ f.definition .blank = noSource := by
  simp only [fields,List.forall_mem_cons,List.not_mem_nil,false_implies,implies_true,and_true]
  and_intros
  all_goals exact fun labels => ⟨rfl,rfl⟩

/-- One merge unites the lists until the flag is set. -/
structure ListField.Follows (f : ListField) : Prop where
  mem : ∀ (m : Merged) (p : Policy) (si : SourceInfo) (a : f.α), a ∈ f.value (m.mergeOne p si).merged ↔
    a ∈ f.value m.merged ∨ f.noParent m.merged = false ∧ a ∈ f.value p
  flag : ∀ (m : Merged) (p : Policy) (si : SourceInfo),
    f.noParent (m.mergeOne p si).merged = (f.noParent m.merged || f.noParent p)

/-- Dropping repetitions drops no element. -/
theorem mem_destutter {α : Type} [DecidableEq α] (l : List α) (a : α) : a ∈ l.destutter (· ≠ ·) ↔ a ∈ l := by
  cases l with
  | nil => simp
  | cons first l =>
    rw [List.destutter_cons']
    induction l generalizing first with
    | nil => simp
    | cons b l ih =>
      by_cases other : first ≠ b
      · rw [List.destutter'_cons_pos _ other,List.mem_cons,ih,List.mem_cons (l := b :: l)]
      · rw [List.destutter'_cons_neg _ other,ih,← not_not.mp other]
        simp

theorem mem_SortAndDedupeTimesOfDay (tod : List TimeOfDay) (t : TimeOfDay) : t ∈ SortAndDedupeTimesOfDay tod ↔ t ∈ tod := by
  rw [SortAndDedupeTimesOfDay,mem_destutter,List.mem_insertionSort]

theorem mem_mergeStrings (target : List String) (targetNoParent : Bool) (src : List String) (noParent : Bool)
    (definition si : SourceInfo) (a : String) :
    a ∈ (mergeStrings target targetNoParent src noParent definition si).target ↔
      a ∈ target ∨ targetNoParent = false ∧ a ∈ src := by
  unfold mergeStrings
  cases targetNoParent with
  | true => simp
  | false => simp

theorem mergeStrings_flag (target : List String) (targetNoParent : Bool) (src : List String) (noParent : Bool)
    (definition si : SourceInfo) :
    (mergeStrings target targetNoParent src noParent definition si).targetNoParent = (targetNoParent || noParent) := by
  unfold mergeStrings
  cases targetNoParent with
  | true => rfl
  | false => rfl

theorem mergeStrings_definition (target : List String) (targetNoParent : Bool) (src : List String) (noParent : Bool)
    (definition si : SourceInfo) :
    (mergeStrings target targetNoParent src noParent definition si).definition =
      if targetNoParent || src.isEmpty then definition else si := by
  unfold mergeStrings
  cases targetNoParent with
  | true => rfl
  | false =>
    cases src with
    | nil => rfl
    | cons first rest => rfl

theorem onlyCompress_follows : onlyCompress.Follows where
  mem _ _ _ a := mem_mergeStrings _ _ _ _ _ _ a
  flag _ _ _ := mergeStrings_flag _ _ _ _ _ _

theorem neverCompress_follows : neverCompress.Follows where
  mem _ _ _ a := mem_mergeStrings _ _ _ _ _ _ a
  flag _ _ _ := mergeStrings_flag _ _ _ _ _ _

theorem mem_timesOfDay (p src : SchedulingPolicy) (d : SchedulingPolicyDefinition) (si : SourceInfo) (t : TimeOfDay) :
    t ∈ (p.Merge src d si).1.timesOfDay ↔ t ∈ p.timesOfDay ∨ p.noParentTimesOfDay = false ∧ t ∈ src.timesOfDay := by
  cases times : src.timesOfDay with
  | nil => simp [SchedulingPolicy.Merge,times]
  | cons first rest =>
    cases flag : p.noParentTimesOfDay with
    | true => simp [SchedulingPolicy.Merge,times,flag]
    | false =>
      simp only [SchedulingPolicy.Merge,times,flag,List.length_cons,Nat.zero_lt_succ,if_true,Bool.not_false,gt_iff_lt,
        mem_SortAndDedupeTimesOfDay,List.mem_append,true_and]
      exact or_comm

theorem flag_timesOfDay (p src : SchedulingPolicy) (d : SchedulingPolicyDefinition) (si : SourceInfo) :
    (p.Merge src d si).1.noParentTimesOfDay = (p.noParentTimesOfDay || src.noParentTimesOfDay) := by
  unfold SchedulingPolicy.Merge
  dsimp only
  cases src.noParentTimesOfDay with
  | true => simp
  | false => simp

theorem timesOfDay_follows : timesOfDay.Follows where
  mem _ _ _ t := mem_timesOfDay _ _ _ _ t
  flag m _ si := flag_timesOfDay _ _ m.definition.scheduling si

end Fields

section Runs

/-- The policies up to the first with the flag, and that one. -/
def upTo (flag : Policy → Bool) : List Policy → List Policy
  | [] => []
  | p :: rest => if flag p then [p] else p :: upTo flag rest

/-- The policies that count: those up to the first without parent, or all and the defaults. -/
def considered (policies : List Policy) : List Policy :=
  if policies.any fun p => p.noParent then upTo (fun p => p.noParent) policies else policies ++ [DefaultPolicy]

def mergeAll (m : Merged) (policies : List Policy) : Merged := policies.foldl (fun m p => m.mergeOne p p.Target) m

theorem mergeLoop_eq (m : Merged) (policies : List Policy) :
    mergeLoop m policies = (mergeAll m (upTo (fun p => p.noParent) policies),policies.any fun p => p.noParent) := by
  induction policies generalizing m with
  | nil => rfl
  | cons p rest ih =>
    rw [mergeLoop,upTo,List.any_cons]
    cases p.noParent with
    | true => rfl
    | false => exact ih (m.mergeOne p p.Target)

theorem upTo_none {flag : Policy → Bool} {policies : List Policy} (none : policies.any flag = false) : upTo flag policies = policies := by
  induction policies with
  | nil => rfl
  | cons p rest ih =>
    rw [List.any_cons,Bool.or_eq_false_iff] at none
    rw [upTo,none.1,if_neg (by simp),ih none.2]

def start (si : SourceInfo) : Merged := ⟨.blank (LabelsForSource si),.blank⟩

/-- After the merges, the actions of folders are set unless the loop returned. -/
theorem MergePolicies_eq (policies : List Policy) (si : SourceInfo) :
    MergePolicies policies si =
      let m := mergeAll (start si) (considered policies)
      match policies.any (fun p => p.noParent),policies with
      | false,first :: _ => ({ m.merged with actions := m.merged.actions.MergeNonInheritable first.actions },m.definition)
      | _,_ => (m.merged,m.definition) := by
  have loop := mergeLoop_eq (start si) policies
  unfold MergePolicies considered
  rw [start] at loop
  rw [loop]
  cases any : policies.any fun p => p.noParent with
  | true => simp [start]
  | false =>
    rw [upTo_none any]
    cases policies with
    | nil => rfl
    | cons first rest =>
      have defaults : mergeAll (start si) (first :: rest ++ [DefaultPolicy]) =
          (mergeAll (start si) (first :: rest)).mergeOne DefaultPolicy GlobalPolicySourceInfo := List.foldl_append
      rw [if_neg Bool.false_ne_true,defaults]
      rfl

/-- Over all policies the first that sets a value decides it. -/
theorem mergeAll_field {f : Field} (follows : f.Follows) (policies : List Policy) (m : Merged) :
    f.ofMerged (mergeAll m policies) =
      if f.isSet (f.value m.merged) then f.ofMerged m
      else
        match policies.find? fun p => f.isSet (f.value p) with
        | some p => (f.value p,p.Target)
        | none => f.ofMerged m := by
  induction policies generalizing m with
  | nil => simp [mergeAll]
  | cons p rest ih =>
    have step := follows m p p.Target
    have value := congrArg Prod.fst step
    dsimp only [Field.ofMerged] at value
    rw [mergeAll,List.foldl_cons]
    rw [← mergeAll,ih,List.find?_cons,step,value]
    unfold mergeUnset
    cases before : f.isSet (f.value m.merged) with
    | true => simp [before,Field.ofMerged]
    | false =>
      cases own : f.isSet (f.value p) with
      | true => simp [own]
      | false => simp [before,Field.ofMerged]

theorem mergeAll_flag {f : ListField} (follows : f.Follows) (policies : List Policy) (m : Merged) :
    f.noParent (mergeAll m policies).merged = (f.noParent m.merged || policies.any f.noParent) := by
  induction policies generalizing m with
  | nil => simp [mergeAll]
  | cons p rest ih =>
    rw [mergeAll,List.foldl_cons]
    rw [← mergeAll,ih,follows.flag,List.any_cons,Bool.or_assoc]

/-- Over all policies the lists are united, up to the first with the flag. -/
theorem mergeAll_mem {f : ListField} (follows : f.Follows) (policies : List Policy) (m : Merged) (a : f.α) :
    a ∈ f.value (mergeAll m policies).merged ↔
      a ∈ f.value m.merged ∨ f.noParent m.merged = false ∧ ∃ p ∈ upTo f.noParent policies, a ∈ f.value p := by
  induction policies generalizing m with
  | nil => simp [mergeAll,upTo]
  | cons p rest ih =>
    rw [mergeAll,List.foldl_cons]
    rw [← mergeAll,ih,follows.mem,follows.flag,upTo]
    cases flag : f.noParent p with
    | true => simp
    | false => simp [or_assoc,and_or_left]

/-- The source that is noted, when each list that is not empty notes its own. -/
def noted (f : ListField) (policies : List Policy) (source : SourceInfo) : SourceInfo :=
  ((policies.reverse.find? fun p => !(f.value p).isEmpty).map Policy.Target).getD source

theorem noted_cons (f : ListField) (p : Policy) (rest : List Policy) (source : SourceInfo) :
    noted f (p :: rest) source = noted f rest (if (f.value p).isEmpty then source else p.Target) := by
  unfold noted
  rw [List.reverse_cons,List.find?_append]
  cases rest.reverse.find? fun p => !(f.value p).isEmpty with
  | some last => rfl
  | none =>
    cases empty : (f.value p).isEmpty with
    | true => simp [empty]
    | false => simp [empty]

/-- The compression lists note no source after the flag. -/
theorem mergeAll_guarded {f : ListField} (follows : f.Follows)
    (notes : ∀ (m : Merged) (p : Policy) (si : SourceInfo), f.definition (m.mergeOne p si).definition =
      if f.noParent m.merged || (f.value p).isEmpty then f.definition m.definition else si)
    (policies : List Policy) (m : Merged) :
    f.definition (mergeAll m policies).definition =
      if f.noParent m.merged then f.definition m.definition else noted f (upTo f.noParent policies) (f.definition m.definition) := by
  induction policies generalizing m with
  | nil => simp [mergeAll,upTo,noted]
  | cons p rest ih =>
    rw [mergeAll,List.foldl_cons]
    rw [← mergeAll,ih,follows.flag,notes,upTo]
    cases before : f.noParent m.merged with
    | true => simp
    | false =>
      cases flag : f.noParent p with
      | true =>
        simp only [Bool.false_or,Bool.or_true,if_true,Bool.false_eq_true,if_false,noted_cons]
        simp [noted]
      | false => simp [noted_cons]

/-- Times of day note their source always. -/
theorem mergeAll_timesOfDay (policies : List Policy) (m : Merged) :
    timesOfDay.definition (mergeAll m policies).definition = noted timesOfDay policies (timesOfDay.definition m.definition) := by
  induction policies generalizing m with
  | nil => simp [mergeAll,noted]
  | cons p rest ih =>
    have notes : timesOfDay.definition (m.mergeOne p p.Target).definition =
        if (timesOfDay.value p).isEmpty then timesOfDay.definition m.definition else p.Target := by
      show (m.merged.scheduling.Merge p.scheduling m.definition.scheduling p.Target).2.timesOfDay =
        if p.scheduling.timesOfDay.isEmpty then m.definition.scheduling.timesOfDay else p.Target
      unfold SchedulingPolicy.Merge
      cases p.scheduling.timesOfDay with
      | nil => rfl
      | cons first rest => rfl
    rw [mergeAll,List.foldl_cons]
    rw [← mergeAll,ih,notes,noted_cons]

/-- The source names a policy that contributed to the list, if any did. -/
def Named (f : ListField) (policies : List Policy) (source : SourceInfo) : Prop :=
  (∀ p ∈ upTo f.noParent policies, f.value p = []) ∧ source = noSource ∨
    ∃ p ∈ upTo f.noParent policies, f.value p ≠ [] ∧ source = p.Target

theorem Named_noted (f : ListField) (policies : List Policy) : Named f policies (noted f (upTo f.noParent policies) noSource) := by
  unfold Named noted
  cases found : (upTo f.noParent policies).reverse.find? fun p => !(f.value p).isEmpty with
  | none =>
    refine .inl ⟨fun p member => ?_,rfl⟩
    have empty := List.find?_eq_none.mp found p (by simpa using member)
    simpa using empty
  | some p =>
    have member := List.mem_of_find?_eq_some found
    have own := List.find?_some found
    exact .inr ⟨p,by simpa using member,by simpa using own,rfl⟩

theorem MergePolicies_definition (policies : List Policy) (si : SourceInfo) :
    (MergePolicies policies si).2 = (mergeAll (start si) (considered policies)).definition := by
  rw [MergePolicies_eq]
  dsimp only
  split <;> rfl

theorem MergePolicies_value {α : Type} (g : Policy → α)
    (inherited : ∀ p : Policy, ∀ a, g { p with actions := p.actions.MergeNonInheritable a } = g p) (policies : List Policy)
    (si : SourceInfo) : g (MergePolicies policies si).1 = g (mergeAll (start si) (considered policies)).merged := by
  rw [MergePolicies_eq]
  dsimp only
  split
  next first _ _ => exact inherited _ first.actions
  next => rfl

theorem mergeAll_folders (policies : List Policy) (m : Merged) :
    (mergeAll m policies).merged.actions.beforeFolder = m.merged.actions.beforeFolder ∧
      (mergeAll m policies).merged.actions.afterFolder = m.merged.actions.afterFolder := by
  induction policies generalizing m with
  | nil => exact ⟨rfl,rfl⟩
  | cons p rest ih => exact ih (m.mergeOne p p.Target)

/-- The actions of folders come from the first policy, but get lost in the early return. -/
theorem MergePolicies_folders (policies : List Policy) (si : SourceInfo) :
    (MergePolicies policies si).1.actions.beforeFolder =
        (if policies.any fun p => p.noParent then none else policies.head?.bind fun p => p.actions.beforeFolder) ∧
      (MergePolicies policies si).1.actions.afterFolder =
        (if policies.any fun p => p.noParent then none else policies.head?.bind fun p => p.actions.afterFolder) := by
  have kept := mergeAll_folders (considered policies) (start si)
  rw [MergePolicies_eq]
  cases any : policies.any fun p => p.noParent with
  | true => exact kept
  | false =>
    cases policies with
    | nil => exact kept
    | cons first rest => exact ⟨rfl,rfl⟩

end Runs

/-- A field has the value and the source of the first policy that sets it. -/
def First (f : Field) (policies : List Policy) (result : Policy × Definition) : Prop :=
  (∀ p, (policies.find? fun p => f.isSet (f.value p)) = some p → f.value result.1 = f.value p ∧ f.definition result.2 = p.Target) ∧
    ((policies.find? fun p => f.isSet (f.value p)) = none → f.isSet (f.value result.1) = false ∧ f.definition result.2 = noSource)

/-- A list unites those of the policies up to the first with the flag. -/
def United (f : ListField) (policies : List Policy) (result : Policy × Definition) : Prop :=
  (∀ a, a ∈ f.value result.1 ↔ ∃ p ∈ upTo f.noParent policies, a ∈ f.value p) ∧ f.noParent result.1 = policies.any f.noParent

structure Merges (policies : List Policy) (result : Policy × Definition) : Prop where
  fields : ∀ f ∈ fields, First f (considered policies) result
  united : ∀ f ∈ [timesOfDay,onlyCompress,neverCompress], United f (considered policies) result
  named : ∀ f ∈ [timesOfDay,onlyCompress,neverCompress], Named f (considered policies) (f.definition result.2)
  beforeFolder : result.1.actions.beforeFolder = policies.head?.bind fun p => p.actions.beforeFolder
  afterFolder : result.1.actions.afterFolder = policies.head?.bind fun p => p.actions.afterFolder

theorem MergePolicies_first (policies : List Policy) (si : SourceInfo) :
    ∀ f ∈ fields, First f (considered policies) (MergePolicies policies si) := by
  intro f member
  obtain ⟨blank,source⟩ := fields_blank f member (LabelsForSource si)
  have merged := mergeAll_field (fields_follow f member) (considered policies) (start si)
  have value := MergePolicies_value f.value (fields_inherited f member) policies si
  rw [if_neg (by rw [start,blank]; simp)] at merged
  rw [First,value,MergePolicies_definition]
  refine ⟨fun p found => ?_,fun none => ?_⟩
  · rw [found] at merged
    exact ⟨congrArg Prod.fst merged,congrArg Prod.snd merged⟩
  · rw [none] at merged
    exact ⟨(congrArg (f.isSet ∘ Prod.fst) merged).trans blank,(congrArg Prod.snd merged).trans source⟩

theorem MergePolicies_united (policies : List Policy) (si : SourceInfo) {f : ListField} (follows : f.Follows)
    (value : ∀ p : Policy, ∀ a, f.value { p with actions := p.actions.MergeNonInheritable a } = f.value p)
    (noParent : ∀ p : Policy, ∀ a, f.noParent { p with actions := p.actions.MergeNonInheritable a } = f.noParent p)
    (empty : f.value (start si).merged = []) (unset : f.noParent (start si).merged = false) :
    United f (considered policies) (MergePolicies policies si) := by
  rw [United,MergePolicies_value f.value value,MergePolicies_value f.noParent noParent]
  refine ⟨fun a => ?_,?_⟩
  · rw [mergeAll_mem follows,empty,unset]
    simp
  · rw [mergeAll_flag follows,unset,Bool.false_or]

theorem MergePolicies_named (policies : List Policy) (si : SourceInfo) {f : ListField} (follows : f.Follows)
    (notes : ∀ (m : Merged) (p : Policy) (si : SourceInfo), f.definition (m.mergeOne p si).definition =
      if f.noParent m.merged || (f.value p).isEmpty then f.definition m.definition else si)
    (unset : f.noParent (start si).merged = false) (blank : f.definition (start si).definition = noSource) :
    Named f (considered policies) (f.definition (MergePolicies policies si).2) := by
  rw [MergePolicies_definition,mergeAll_guarded follows notes,unset,blank]
  exact Named_noted f (considered policies)

/-- The last of the policies that has times of day has the source of one that contributed them. -/
def TimesNamed (policies : List Policy) : Prop :=
  ∀ last, (policies.reverse.find? fun p => !(timesOfDay.value p).isEmpty) = some last → Named timesOfDay policies last.Target

theorem Named_timesOfDay_iff (policies : List Policy) :
    Named timesOfDay policies (noted timesOfDay policies noSource) ↔ TimesNamed policies := by
  unfold noted TimesNamed
  cases found : policies.reverse.find? fun p => !(timesOfDay.value p).isEmpty with
  | some last => simp
  | none =>
    refine ⟨fun _ last none => by contradiction,fun _ => .inl ⟨fun p member => ?_,rfl⟩⟩
    have inside (l : List Policy) : p ∈ upTo timesOfDay.noParent l → p ∈ l := by
      induction l with
      | nil => exact id
      | cons q rest ih =>
        rw [upTo]
        split
        next => exact fun single => by simp [List.mem_singleton.mp single]
        next => exact fun here => (List.mem_cons.mp here).elim (fun same => by simp [same]) fun there => by simp [ih there]
    have empty := List.find?_eq_none.mp found p (by simpa using inside policies member)
    simpa using empty

/-- Nothing is lost by an early return if the first policy has nothing to lose. -/
theorem early_return_iff (policies : List Policy) (early : Bool) (g : Policy → Option ActionCommand) :
    (if early then none else policies.head?.bind g) = policies.head?.bind g ↔
      (early = true → ∀ first ∈ policies.head?, g first = none) := by
  cases early with
  | false => simp
  | true =>
    cases policies with
    | nil => simp
    | cons first rest => simp [eq_comm]

/-- The merge does what it should, up to two defects: the source of times of day is noted after the
flag too, and the early return skips the actions of folders. -/
theorem MergePolicies_iff (policies : List Policy) (si : SourceInfo) :
    Merges policies (MergePolicies policies si) ↔
      TimesNamed (considered policies) ∧
        ((policies.any fun p => p.noParent) = true →
          ∀ first ∈ policies.head?, first.actions.beforeFolder = none ∧ first.actions.afterFolder = none) := by
  obtain ⟨before,after⟩ := MergePolicies_folders policies si
  have times : timesOfDay.definition (MergePolicies policies si).2 = noted timesOfDay (considered policies) noSource := by
    rw [MergePolicies_definition,mergeAll_timesOfDay]
    rfl
  constructor
  · intro merges
    refine ⟨(Named_timesOfDay_iff _).mp (times ▸ merges.named timesOfDay (by simp)),fun early first head => ⟨?_,?_⟩⟩
    · exact (early_return_iff _ _ _).mp (before.symm.trans merges.beforeFolder) early first head
    · exact (early_return_iff _ _ _).mp (after.symm.trans merges.afterFolder) early first head
  · rintro ⟨named,kept⟩
    refine ⟨MergePolicies_first policies si,?united,?named,?before,?after⟩
    case united =>
      simp only [List.forall_mem_cons,List.not_mem_nil,false_implies,implies_true,and_true]
      exact ⟨MergePolicies_united policies si timesOfDay_follows (fun _ _ => rfl) (fun _ _ => rfl) rfl rfl,
        MergePolicies_united policies si onlyCompress_follows (fun _ _ => rfl) (fun _ _ => rfl) rfl rfl,
        MergePolicies_united policies si neverCompress_follows (fun _ _ => rfl) (fun _ _ => rfl) rfl rfl⟩
    case named =>
      simp only [List.forall_mem_cons,List.not_mem_nil,false_implies,implies_true,and_true]
      exact ⟨times ▸ (Named_timesOfDay_iff _).mpr named,
        MergePolicies_named policies si onlyCompress_follows (fun _ _ _ => mergeStrings_definition _ _ _ _ _ _) rfl rfl,
        MergePolicies_named policies si neverCompress_follows (fun _ _ _ => mergeStrings_definition _ _ _ _ _ _) rfl rfl⟩
    case before => exact before.trans ((early_return_iff _ _ _).mpr fun early first head => (kept early first head).1)
    case after => exact after.trans ((early_return_iff _ _ _).mpr fun early first head => (kept early first head).2)

/-- A policy without parent that has a command before its folder. -/
def aloneWithAction : Policy :=
  { Policy.blank .empty with actions := ⟨some ⟨"run",[],"",0,""⟩,none,none,none⟩, noParent := true }

/-- The command before the folder is lost. -/
theorem MergePolicies_loses : ¬∀ policies si, Merges policies (MergePolicies policies si) := by
  intro merges
  have kept := (merges [aloneWithAction] ⟨"h","u","/p"⟩).beforeFolder
  rw [(MergePolicies_folders _ _).1] at kept
  simp [aloneWithAction] at kept

end Vbe.Policies
