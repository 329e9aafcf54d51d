import Mathlib.Data.List.Sort

/-! The history of maintenance tasks, and what is decided from it. -/
namespace Vbe.Maintenance

/-- `time.Time{}`. Times and durations are in nanoseconds. -/
def zeroTime : Int := 0

def maxRetainedRunInfoPerRunType : Nat := 5

inductive TaskType
  | SnapshotGarbageCollection
  | DeleteOrphanedBlobsQuick
  | DeleteOrphanedBlobsFull
  | RewriteContentsQuick
  | RewriteContentsFull
  | DropDeletedContentsFull
  | IndexCompaction
  | ExtendBlobRetentionTimeFull
  | CleanupLogs
  | EpochAdvance
  | EpochDeleteSupersededIndexes
  | EpochCleanupMarkers
  | EpochGenerateRange
  | EpochCompactSingle
deriving DecidableEq

structure RunInfo where
  Start : Int
  End : Int
  Success : Bool
deriving DecidableEq

structure Schedule where
  NextFullMaintenanceTime : Int
  NextQuickMaintenanceTime : Int
  Runs : TaskType → List RunInfo

namespace Schedule

def empty : Schedule := ⟨zeroTime,zeroTime,fun _ => []⟩

def ReportRun (s : Schedule) (taskType : TaskType) (info : RunInfo) : Schedule :=
  { s with Runs := fun other => if other = taskType then (info :: s.Runs taskType).take maxRetainedRunInfoPerRunType else s.Runs other }

end Schedule

structure SafetyParameters where
  RequireTwoGCCycles : Bool
  MarginBetweenSnapshotGC : Int
  DropContentFromIndexExtraMargin : Int
  MinRewriteToOrphanDeletionDelay : Int

def latestEnd (runs : List RunInfo) (result : Int) : Int :=
  runs.foldl (fun result r => if !r.Success then result else if r.End > result then r.End else result) result

def maxEndTime (taskRuns : List (List RunInfo)) : Int :=
  latestEnd taskRuns.flatten zeroTime

def rewriteRuns (s : Schedule) : List (List RunInfo) := [s.Runs .RewriteContentsFull,s.Runs .RewriteContentsQuick]

def deleteRuns (s : Schedule) : List (List RunInfo) := [s.Runs .DeleteOrphanedBlobsFull,s.Runs .DeleteOrphanedBlobsQuick]

section Decisions
variable (s : Schedule) (safety : SafetyParameters)

def shouldQuickRewriteContents : Bool :=
  let latestContentRewriteEndTime := maxEndTime (rewriteRuns s)
  let latestBlobDeleteTime := maxEndTime (deleteRuns s)
  if latestContentRewriteEndTime = zeroTime ∨ safety.MinRewriteToOrphanDeletionDelay = 0 then true
  else !(latestBlobDeleteTime < latestContentRewriteEndTime)

/-- Quick rewrites are not looked at. -/
def shouldFullRewriteContents : Bool :=
  let latestContentRewriteEndTime := maxEndTime [s.Runs .RewriteContentsFull]
  let latestBlobDeleteTime := maxEndTime (deleteRuns s)
  if latestContentRewriteEndTime = zeroTime ∨ safety.MinRewriteToOrphanDeletionDelay = 0 then true
  else !(latestBlobDeleteTime < latestContentRewriteEndTime)

def nextBlobDeleteTime : Int :=
  let latestContentRewriteEndTime := maxEndTime (rewriteRuns s)
  if latestContentRewriteEndTime = zeroTime then zeroTime
  else latestContentRewriteEndTime + safety.MinRewriteToOrphanDeletionDelay

def shouldDeleteOrphanedPacks (now : Int) : Bool := !(now < nextBlobDeleteTime s safety)

def hadRecentFullRewrite : Bool := !(maxEndTime [s.Runs .RewriteContentsFull] < maxEndTime [s.Runs .RewriteContentsQuick])

end Decisions

/-- The order of runs that started at the same time is not determined; here it is that of the list. -/
def findSafeDropTime (runs : List RunInfo) (safety : SafetyParameters) : Int :=
  match (runs.filter (·.Success)).insertionSort fun r r' => r.Start ≥ r'.Start with
  | [] => zeroTime
  | latest :: earlier =>
    match earlier.find? fun r => latest.Start - r.End > safety.MarginBetweenSnapshotGC with
    | some r => r.Start - safety.DropContentFromIndexExtraMargin
    | none => zeroTime

section Ends

theorem latestEnd_cons (r : RunInfo) (runs : List RunInfo) (result : Int) :
    latestEnd (r :: runs) result = latestEnd runs (if !r.Success then result else if r.End > result then r.End else result) := rfl

theorem le_latestEnd (runs : List RunInfo) (result : Int) : result ≤ latestEnd runs result := by
  induction runs generalizing result with
  | nil => exact le_rfl
  | cons r runs ih =>
    rw [latestEnd_cons]
    refine le_trans ?_ (ih _)
    split
    · exact le_rfl
    · split
      next later => exact le_of_lt later
      next => exact le_rfl

/-- The latest end is that of no run, or of a successful one. -/
theorem latestEnd_eq (runs : List RunInfo) (result : Int) : latestEnd runs result = result ∨
    ∃ r ∈ runs, r.Success ∧ r.End = latestEnd runs result := by
  induction runs generalizing result with
  | nil => exact .inl rfl
  | cons r runs ih =>
    rcases ih (if !r.Success then result else if r.End > result then r.End else result) with same | ⟨r',member,success,same⟩
    · change latestEnd (r :: runs) result = _ at same
      rw [same]
      by_cases success : r.Success
      · by_cases later : r.End > result
        · exact .inr ⟨r,List.mem_cons_self,success,by simp [success,later]⟩
        · exact .inl (by simp [success,later])
      · exact .inl (by simp [success])
    · exact .inr ⟨r',List.mem_cons_of_mem _ member,success,same⟩

theorem end_le_latestEnd {runs : List RunInfo} {r : RunInfo} (member : r ∈ runs) (success : r.Success) (result : Int) :
    r.End ≤ latestEnd runs result := by
  induction runs generalizing result with
  | nil => contradiction
  | cons first runs ih =>
    rcases List.mem_cons.mp member with rfl | later
    · refine le_trans ?_ (le_latestEnd runs _)
      simp only [success,Bool.not_true,Bool.false_eq_true,if_false]
      split
      next => exact le_rfl
      next notLater => exact not_lt.mp notLater
    · exact ih later _

theorem maxEndTime_nonneg (taskRuns : List (List RunInfo)) : 0 ≤ maxEndTime taskRuns := le_latestEnd _ _

theorem end_le_maxEndTime {taskRuns : List (List RunInfo)} {runs : List RunInfo} {r : RunInfo} (known : runs ∈ taskRuns) (member : r ∈ runs)
    (success : r.Success) : r.End ≤ maxEndTime taskRuns :=
  end_le_latestEnd (List.mem_flatten.mpr ⟨runs,known,member⟩) success zeroTime

/-- What has a time before the latest end is no later than the end of some successful run, if it is after the zero time. -/
theorem exists_end_of_le {taskRuns : List (List RunInfo)} {time : Int} (positive : 0 < time) (early : time ≤ maxEndTime taskRuns) :
    ∃ runs ∈ taskRuns, ∃ r ∈ runs, r.Success ∧ time ≤ r.End := by
  rcases latestEnd_eq taskRuns.flatten zeroTime with none | ⟨r,member,success,same⟩
  · change maxEndTime taskRuns = 0 at none
    omega
  · obtain ⟨runs,known,member⟩ := List.mem_flatten.mp member
    exact ⟨runs,known,r,member,success,same ▸ early⟩

theorem maxEndTime_le {taskRuns : List (List RunInfo)} {runs : List RunInfo} (known : runs ∈ taskRuns) :
    maxEndTime [runs] ≤ maxEndTime taskRuns := by
  by_contra later
  have positive : 0 < maxEndTime [runs] := lt_of_le_of_lt (maxEndTime_nonneg taskRuns) (not_le.mp later)
  obtain ⟨runs',known',r,member,success,early⟩ := exists_end_of_le positive le_rfl
  obtain rfl := List.mem_singleton.mp known'
  exact later (early.trans (end_le_maxEndTime known member success))

end Ends

end Vbe.Maintenance
