import Vbe.Library.Queries
import Vbe.Maintenance.Schedule

/-! Maintenance runs. Tasks are run by the repository; a run records how they ended, and decides from what it has
recorded what to run next. -/
namespace Vbe.Maintenance
open Vbe.Library

inductive Mode
  | quick
  | full
deriving DecidableEq

structure CycleParams where
  Enabled : Bool
  Interval : Int

structure Params where
  QuickCycle : CycleParams
  FullCycle : CycleParams
  ExtendObjectLocks : Bool

inductive Op
  | Time
  | GetSchedule
  | SetSchedule (s : Schedule)
  /-- The check of the clock, and the refresh of indexes. -/
  | Refresh
  | EpochManager
  | run (taskType : TaskType)

inductive Reply
  | time (now : Int)
  | schedule (s : Schedule)
  | epochManager (enabled : Bool)
  | ended (info : RunInfo)
  | done
  | failed

abbrev Program := Query Op Reply Unit

def now : Program Int := .ask .Time fun reply =>
  match reply with
  | .time now => .answer now
  | _ => .fail ()

def GetSchedule : Program Schedule := .ask .GetSchedule fun reply =>
  match reply with
  | .schedule s => .answer s
  | _ => .fail ()

def SetSchedule (s : Schedule) : Program Unit := .ask (.SetSchedule s) fun reply =>
  match reply with
  | .done => .answer ()
  | _ => .fail ()

def Refresh : Program Unit := .ask .Refresh fun reply =>
  match reply with
  | .done => .answer ()
  | _ => .fail ()

def EpochManager : Program Bool := .ask .EpochManager fun reply =>
  match reply with
  | .epochManager enabled => .answer enabled
  | _ => .fail ()

/-- A history that cannot be saved is only logged. -/
def ReportRun (taskType : TaskType) (s : Schedule) : Program Schedule := .ask (.run taskType) fun reply =>
  match reply with
  | .ended info =>
    let s := s.ReportRun taskType info
    .ask (.SetSchedule s) fun _ => if info.Success then .answer s else .fail ()
  | _ => .fail ()

def reportAll : List TaskType → Schedule → Program Schedule
  | [], s => .answer s
  | taskType :: rest, s => do
    let s ← ReportRun taskType s
    reportAll rest s

variable (safety : SafetyParameters) (p : Params)

def runTaskDropDeletedContentsFull (s : Schedule) : Program Schedule := do
  let safeDropTime ← if safety.RequireTwoGCCycles then .answer (findSafeDropTime (s.Runs .SnapshotGarbageCollection) safety) else now
  if safeDropTime = zeroTime then .answer s else ReportRun .DropDeletedContentsFull s

def runTaskEpochMaintenanceQuick (s : Schedule) : Program Schedule := do
  let hasEpochManager ← EpochManager
  if hasEpochManager then reportAll [.EpochCompactSingle,.EpochAdvance] s else .answer s

def runTaskEpochMaintenanceFull (s : Schedule) : Program Schedule := do
  let hasEpochManager ← EpochManager
  if hasEpochManager then
    reportAll [.EpochCompactSingle,.EpochAdvance,.EpochGenerateRange,.EpochCleanupMarkers,.EpochDeleteSupersededIndexes] s
  else .answer s

/-- A task is run if it is to be. -/
def runIf (decided : Bool) (taskType : TaskType) (s : Schedule) : Program Schedule :=
  if decided then ReportRun taskType s else .answer s

def runQuickMaintenance : Program Unit := do
  let hasEpochManager ← EpochManager
  if hasEpochManager then .answer ()
  else
    let s ← GetSchedule
    let s ← runIf (shouldQuickRewriteContents s safety) .RewriteContentsQuick s
    let time ← now
    let s ← runIf (shouldDeleteOrphanedPacks s safety time)
      (if hadRecentFullRewrite s then .DeleteOrphanedBlobsFull else .DeleteOrphanedBlobsQuick) s
    let s ← runTaskEpochMaintenanceQuick s
    let s ← ReportRun .IndexCompaction s
    let _ ← ReportRun .CleanupLogs s
    .answer ()

def runFullMaintenance : Program Unit := do
  let s ← GetSchedule
  let s ← runIf (shouldFullRewriteContents s safety) .RewriteContentsFull s
  let s ← runTaskDropDeletedContentsFull safety s
  let time ← now
  let s ← runIf (shouldDeleteOrphanedPacks s safety time) .DeleteOrphanedBlobsFull s
  let s ← runIf p.ExtendObjectLocks .ExtendBlobRetentionTimeFull s
  let s ← runTaskEpochMaintenanceFull s
  let _ ← ReportRun .CleanupLogs s
  .answer ()

def updateSchedule (mode : Mode) : Program Unit := do
  let s ← GetSchedule
  let time ← now
  match mode with
  | .full =>
    SetSchedule { s with
      NextFullMaintenanceTime := time + p.FullCycle.Interval
      NextQuickMaintenanceTime := time + p.QuickCycle.Interval }
  | .quick => SetSchedule { s with NextQuickMaintenanceTime := time + p.QuickCycle.Interval }

/-- A run of maintenance, which runs the snapshot garbage collection before a full cycle. -/
def Run (mode : Mode) : Program Unit := do
  updateSchedule p mode
  Refresh
  match mode with
  | .quick => runQuickMaintenance safety
  | .full => do
    let s ← GetSchedule
    let _ ← ReportRun .SnapshotGarbageCollection s
    runFullMaintenance safety p

/-- How a question ends. Its effect is that a rewrite moved a content out of a pack, that a schedule was written though the
write failed, or that there is an epoch manager. -/
structure Ending where
  elapsed : Nat
  success : Bool
  effect : Bool
deriving DecidableEq

inductive Event
  /-- A rewrite that moved a content out of a pack has ended. -/
  | moved (ended : Int)
  | deleting (started : Int)
deriving DecidableEq

/-- The clock, the schedule that is saved, and what has happened, the latest first. -/
structure World where
  time : Int
  schedule : Schedule
  history : List Event
  /-- A rewrite that moved contents has ended since the schedule was saved. -/
  unsaved : Bool

def World.passes (w : World) (elapsed : Nat) : World := { w with time := w.time + elapsed }

def World.runs (w : World) (taskType : TaskType) (e : Ending) : World :=
  match taskType with
  | .RewriteContentsQuick | .RewriteContentsFull =>
    if e.effect then { w.passes e.elapsed with history := .moved (w.time + e.elapsed) :: w.history, unsaved := true }
    else w.passes e.elapsed
  | .DeleteOrphanedBlobsQuick | .DeleteOrphanedBlobsFull => { w.passes e.elapsed with history := .deleting w.time :: w.history }
  | _ => w.passes e.elapsed

def act (w : World) (op : Op) (e : Ending) : World × Reply :=
  match op with
  | .Time => (w.passes e.elapsed,.time (w.time + e.elapsed))
  | .GetSchedule => (w.passes e.elapsed,if e.success then .schedule w.schedule else .failed)
  | .SetSchedule s =>
    if e.success ∨ e.effect then ({ w.passes e.elapsed with schedule := s, unsaved := false },if e.success then .done else .failed)
    else (w.passes e.elapsed,.failed)
  | .Refresh => (w.passes e.elapsed,if e.success then .done else .failed)
  | .EpochManager => (w.passes e.elapsed,if e.success then .epochManager e.effect else .failed)
  | .run taskType => (w.runs taskType e,.ended ⟨w.time,w.time + e.elapsed,e.success⟩)

end Vbe.Maintenance
