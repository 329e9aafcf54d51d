import Vbe.Library.Keyed
import Vbe.Policy.RetentionPolicy

/-! The fields of a policy, the sources that policies are attached to, and the defaults. The policy of
each kind of field comes with the record of who defined it. -/
namespace Vbe.Policies
open Vbe.Library
open Vbe.Policy (OptionalInt SourceInfo)

abbrev Labels := Keyed (Prod.fst : String × String → String)

/-- A label that is missing reads as the empty string. -/
def Labels.value (labels : Labels) (label : String) : String := ((labels.get? label).map Prod.snd).getD ""

def Labels.of (labels : List (String × String)) : Labels := Keyed.empty.setAll labels

def typeKey : String := "type"

def ManifestType : String := "policy"

def PolicyTypeLabel : String := "policyType"

def PolicyTypePath : String := "path"

def PolicyTypeGlobal : String := "global"

def PolicyTypeHost : String := "host"

def PolicyTypeUser : String := "user"

def PathLabel : String := "path"

def UsernameLabel : String := "username"

def HostnameLabel : String := "hostname"

deriving instance DecidableEq for SourceInfo

def GlobalPolicySourceInfo : SourceInfo := ⟨"","",""⟩

def LabelsForSource (si : SourceInfo) : Labels :=
  if si.path ≠ "" then
    .of [(typeKey,ManifestType),(PolicyTypeLabel,PolicyTypePath),(UsernameLabel,si.userName),(HostnameLabel,si.host),
      (PathLabel,si.path)]
  else if si.userName ≠ "" then
    .of [(typeKey,ManifestType),(PolicyTypeLabel,PolicyTypeUser),(UsernameLabel,si.userName),(HostnameLabel,si.host)]
  else if si.host ≠ "" then
    .of [(typeKey,ManifestType),(PolicyTypeLabel,PolicyTypeHost),(HostnameLabel,si.host)]
  else .of [(typeKey,ManifestType),(PolicyTypeLabel,PolicyTypeGlobal)]

abbrev OptionalBool := Option Bool

abbrev OptionalInt64 := Option Int64

abbrev LogDetail := Int64

abbrev OSSnapshotMode := UInt8

structure RetentionPolicy extends Vbe.Policy.RetentionPolicy where
  ignoreIdenticalSnapshots : OptionalBool

structure RetentionPolicyDefinition where
  keepLatest : SourceInfo
  keepHourly : SourceInfo
  keepDaily : SourceInfo
  keepWeekly : SourceInfo
  keepMonthly : SourceInfo
  keepAnnual : SourceInfo
  ignoreIdenticalSnapshots : SourceInfo

structure FilesPolicy where
  ignoreRules : List String
  noParentIgnoreRules : Bool
  dotIgnoreFiles : List String
  noParentDotIgnoreFiles : Bool
  ignoreCacheDirectories : OptionalBool
  maxFileSize : Int64
  oneFileSystem : OptionalBool

structure FilesPolicyDefinition where
  ignoreRules : SourceInfo
  noParentIgnoreRules : SourceInfo
  dotIgnoreFiles : SourceInfo
  noParentDotIgnoreFiles : SourceInfo
  ignoreCacheDirectories : SourceInfo
  maxFileSize : SourceInfo
  oneFileSystem : SourceInfo

structure ErrorHandlingPolicy where
  ignoreFileErrors : OptionalBool
  ignoreDirectoryErrors : OptionalBool
  ignoreUnknownTypes : OptionalBool

structure ErrorHandlingPolicyDefinition where
  ignoreFileErrors : SourceInfo
  ignoreDirectoryErrors : SourceInfo
  ignoreUnknownTypes : SourceInfo

structure TimeOfDay where
  hour : Int64
  minute : Int64
deriving DecidableEq

structure SchedulingPolicy where
  intervalSeconds : Int64
  timesOfDay : List TimeOfDay
  noParentTimesOfDay : Bool
  manual : Bool
  cron : List String
  runMissed : OptionalBool

structure SchedulingPolicyDefinition where
  intervalSeconds : SourceInfo
  timesOfDay : SourceInfo
  cron : SourceInfo
  manual : SourceInfo
  runMissed : SourceInfo

structure CompressionPolicy where
  compressorName : String
  onlyCompress : List String
  noParentOnlyCompress : Bool
  neverCompress : List String
  noParentNeverCompress : Bool
  minSize : Int64
  maxSize : Int64

structure CompressionPolicyDefinition where
  compressorName : SourceInfo
  onlyCompress : SourceInfo
  neverCompress : SourceInfo
  minSize : SourceInfo
  maxSize : SourceInfo

structure SplitterPolicy where
  algorithm : String

structure SplitterPolicyDefinition where
  algorithm : SourceInfo

structure ActionCommand where
  command : String
  arguments : List String
  script : String
  timeoutSeconds : Int64
  mode : String

structure ActionsPolicy where
  beforeFolder : Option ActionCommand
  afterFolder : Option ActionCommand
  beforeSnapshotRoot : Option ActionCommand
  afterSnapshotRoot : Option ActionCommand

structure ActionsPolicyDefinition where
  beforeSnapshotRoot : SourceInfo
  afterSnapshotRoot : SourceInfo

structure VolumeShadowCopyPolicy where
  enable : Option OSSnapshotMode

structure VolumeShadowCopyPolicyDefinition where
  enable : SourceInfo

structure OSSnapshotPolicy where
  volumeShadowCopy : VolumeShadowCopyPolicy

structure OSSnapshotPolicyDefinition where
  volumeShadowCopy : VolumeShadowCopyPolicyDefinition

structure DirLoggingPolicy where
  snapshotted : Option LogDetail
  ignored : Option LogDetail

structure DirLoggingPolicyDefinition where
  snapshotted : SourceInfo
  ignored : SourceInfo

structure EntryLoggingPolicy where
  snapshotted : Option LogDetail
  ignored : Option LogDetail
  cacheHit : Option LogDetail
  cacheMiss : Option LogDetail

structure EntryLoggingPolicyDefinition where
  snapshotted : SourceInfo
  ignored : SourceInfo
  cacheHit : SourceInfo
  cacheMiss : SourceInfo

structure LoggingPolicy where
  directories : DirLoggingPolicy
  entries : EntryLoggingPolicy

structure LoggingPolicyDefinition where
  directories : DirLoggingPolicyDefinition
  entries : EntryLoggingPolicyDefinition

structure UploadPolicy where
  maxParallelSnapshots : OptionalInt
  maxParallelFileReads : OptionalInt
  parallelUploadAboveSize : OptionalInt64

structure UploadPolicyDefinition where
  maxParallelSnapshots : SourceInfo
  maxParallelFileReads : SourceInfo
  parallelUploadAboveSize : SourceInfo

structure Policy where
  labels : Labels
  retention : RetentionPolicy
  files : FilesPolicy
  errorHandling : ErrorHandlingPolicy
  scheduling : SchedulingPolicy
  compression : CompressionPolicy
  splitter : SplitterPolicy
  actions : ActionsPolicy
  osSnapshots : OSSnapshotPolicy
  logging : LoggingPolicy
  upload : UploadPolicy
  noParent : Bool

structure Definition where
  retention : RetentionPolicyDefinition
  files : FilesPolicyDefinition
  errorHandling : ErrorHandlingPolicyDefinition
  scheduling : SchedulingPolicyDefinition
  compression : CompressionPolicyDefinition
  splitter : SplitterPolicyDefinition
  actions : ActionsPolicyDefinition
  osSnapshots : OSSnapshotPolicyDefinition
  logging : LoggingPolicyDefinition
  upload : UploadPolicyDefinition

def Policy.Target (p : Policy) : SourceInfo where
  host := p.labels.value HostnameLabel
  userName := p.labels.value UsernameLabel
  path := p.labels.value PathLabel

section Zero

/-- `Policy{}` with labels. -/
def Policy.blank (labels : Labels) : Policy where
  labels := labels
  retention := ⟨⟨none,none,none,none,none,none⟩,none⟩
  files := ⟨[],false,[],false,none,0,none⟩
  errorHandling := ⟨none,none,none⟩
  scheduling := ⟨0,[],false,false,[],none⟩
  compression := ⟨"",[],false,[],false,0,0⟩
  splitter := ⟨""⟩
  actions := ⟨none,none,none,none⟩
  osSnapshots := ⟨⟨none⟩⟩
  logging := ⟨⟨none,none⟩,⟨none,none,none,none⟩⟩
  upload := ⟨none,none,none⟩
  noParent := false

def noSource : SourceInfo := ⟨"","",""⟩

/-- `Definition{}`. -/
def Definition.blank : Definition where
  retention := ⟨noSource,noSource,noSource,noSource,noSource,noSource,noSource⟩
  files := ⟨noSource,noSource,noSource,noSource,noSource,noSource,noSource⟩
  errorHandling := ⟨noSource,noSource,noSource⟩
  scheduling := ⟨noSource,noSource,noSource,noSource,noSource⟩
  compression := ⟨noSource,noSource,noSource,noSource,noSource⟩
  splitter := ⟨noSource⟩
  actions := ⟨noSource,noSource⟩
  osSnapshots := ⟨⟨noSource⟩⟩
  logging := ⟨⟨noSource,noSource⟩,⟨noSource,noSource,noSource,noSource⟩⟩
  upload := ⟨noSource,noSource,noSource⟩

end Zero

section Defaults

def defaultActionsPolicy : ActionsPolicy := ⟨none,none,none,none⟩

def defaultCompressionPolicy : CompressionPolicy := ⟨"none",[],false,[],false,0,0⟩

def defaultSplitterPolicy : SplitterPolicy := ⟨""⟩

def defaultErrorHandlingPolicy : ErrorHandlingPolicy := ⟨some false,some false,some true⟩

def defaultFilesPolicy : FilesPolicy := ⟨[],false,[".kopiaignore"],false,none,0,none⟩

def LogDetailNone : LogDetail := 0

def LogDetailNormal : LogDetail := 5

def defaultLoggingPolicy : LoggingPolicy :=
  ⟨⟨some LogDetailNormal,some LogDetailNormal⟩,⟨some LogDetailNone,some LogDetailNormal,some LogDetailNone,some LogDetailNone⟩⟩

def defaultRetentionPolicy : RetentionPolicy := ⟨⟨some 10,some 48,some 7,some 4,some 24,some 3⟩,some false⟩

def defaultSchedulingPolicy : SchedulingPolicy := ⟨0,[],false,false,[],some true⟩

def OSSnapshotNever : OSSnapshotMode := 0

def defaultOSSnapshotPolicy : OSSnapshotPolicy := ⟨⟨some OSSnapshotNever⟩⟩

def defaultUploadPolicy : UploadPolicy := ⟨some 1,none,some 2147483648⟩

def DefaultPolicy : Policy where
  labels := .empty
  files := defaultFilesPolicy
  retention := defaultRetentionPolicy
  compression := defaultCompressionPolicy
  errorHandling := defaultErrorHandlingPolicy
  scheduling := defaultSchedulingPolicy
  logging := defaultLoggingPolicy
  actions := defaultActionsPolicy
  osSnapshots := defaultOSSnapshotPolicy
  upload := defaultUploadPolicy
  splitter := ⟨""⟩
  noParent := false

end Defaults

end Vbe.Policies
