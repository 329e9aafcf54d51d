import Vbe.Library.Runs
import Vbe.Maintenance.Run

/-! How long orphaned packs are kept after contents were moved out of them. -/
namespace Vbe.Maintenance
open Vbe.Library Vbe.Library.Runs

variable (safety : SafetyParameters)

/-- A deletion started only so long after every rewrite before it that moved contents. -/
def Delayed (history : List Event) : Prop :=
  ∀ newer started older, history = newer ++ .deleting started :: older →
    ∀ ended, .moved ended ∈ older → ended + safety.MinRewriteToOrphanDeletionDelay ≤ started

/-- A full rewrite that moves contents while a quick one still awaits the deletion of its orphans succeeds. -/
def Succeeds (w : World) (op : Op) (e : Option Ending) : Prop :=
  match op, e with
  | .run .RewriteContentsFull, some e => e.effect → e.success ∨ shouldQuickRewriteContents w.schedule safety
  | _, _ => True

instance (w : World) : ∀ op e, Decidable (Succeeds safety w op e)
  | .run .RewriteContentsFull, some e =>
    inferInstanceAs (Decidable (e.effect → e.success ∨ shouldQuickRewriteContents w.schedule safety))
  | .run .RewriteContentsFull, none => isTrue trivial
  | .Time, _ | .GetSchedule, _ | .SetSchedule _, _ | .Refresh, _ | .EpochManager, _ => isTrue trivial
  | .run .SnapshotGarbageCollection, _ | .run .DeleteOrphanedBlobsQuick, _ | .run .DeleteOrphanedBlobsFull, _
  | .run .RewriteContentsQuick, _ | .run .DropDeletedContentsFull, _ | .run .IndexCompaction, _
  | .run .ExtendBlobRetentionTimeFull, _ | .run .CleanupLogs, _ | .run .EpochAdvance, _ | .run .EpochDeleteSupersededIndexes, _
  | .run .EpochCleanupMarkers, _ | .run .EpochGenerateRange, _ | .run .EpochCompactSingle, _ => isTrue trivial

/-- A run of maintenance, and the time after it. -/
structure Label where
  mode : Mode
  params : Params
  endings : List Ending
  pause : Nat

def World.begun (w : World) : World := { w with unsaved := false }

def Label.run (l : Label) (w : World) : World := ((Run safety l.params l.mode).steps act l.endings w.begun).1

def step (w : World) (l : Label) : Option World := some ((l.run safety w).passes l.pause)

/-- In a run, a full rewrite that moves contents while a quick one still awaits the deletion of its orphans succeeds, and
the schedule is saved after it. -/
def Recorded (w : World) (l : Label) : Prop :=
  (Run safety l.params l.mode).Along act (Succeeds safety) l.endings w.begun ∧
    ((l.run safety w).unsaved = false ∨ shouldQuickRewriteContents (l.run safety w).schedule safety)

structure Base (w : World) : Prop where
  positive : 0 < w.time
  past : ∀ ended, .moved ended ∈ w.history → 0 < ended ∧ ended ≤ w.time
  delayed : Delayed safety w.history

/-- A schedule knows of the rewrites after which it is too early to delete. -/
def Tracks (s : Schedule) (w : World) : Prop := ∀ ended, .moved ended ∈ w.history →
  ended ≤ maxEndTime (rewriteRuns s) ∨ ended + safety.MinRewriteToOrphanDeletionDelay ≤ w.time

/-- A schedule that does not know of a rewrite has contents rewritten once more first. -/
def Covers (s : Schedule) (w : World) : Prop := shouldQuickRewriteContents s safety ∨ Tracks safety s w

structure Inv (w : World) : Prop extends Base safety w where
  saved : w.unsaved = false → Covers safety w.schedule w

section Records
variable {s : Schedule} {taskType other : TaskType} {info r : RunInfo}

theorem mem_reported (member : r ∈ (s.ReportRun taskType info).Runs other) : r = info ∧ other = taskType ∨ r ∈ s.Runs other := by
  simp only [Schedule.ReportRun] at member
  split at member
  next same =>
    rcases List.mem_cons.mp (List.mem_of_mem_take member) with first | older
    · exact .inl ⟨first,same⟩
    · exact .inr (same ▸ older)
  next => exact .inr member

theorem reported_self : info ∈ (s.ReportRun taskType info).Runs taskType := by
  simp [Schedule.ReportRun,maxRetainedRunInfoPerRunType]

theorem reported_other (different : other ≠ taskType) : (s.ReportRun taskType info).Runs other = s.Runs other :=
  if_neg different

end Records

section Passing
variable {safety} {s : Schedule} {w : World}

theorem Base.passes (base : Base safety w) (elapsed : Nat) : Base safety (w.passes elapsed) := by
  have later : w.time ≤ w.time + elapsed := by omega
  refine ⟨base.positive.trans_le later,?_,base.delayed⟩
  intro ended member
  obtain ⟨positive,past⟩ := base.past ended member
  exact ⟨positive,past.trans later⟩

theorem Tracks.passes (tracks : Tracks safety s w) (elapsed : Nat) : Tracks safety s (w.passes elapsed) := by
  have later : w.time ≤ w.time + elapsed := by omega
  intro ended member
  exact (tracks ended member).imp id fun old => old.trans later

theorem Covers.passes (covers : Covers safety s w) (elapsed : Nat) : Covers safety s (w.passes elapsed) :=
  covers.imp id fun tracks => tracks.passes elapsed

theorem Inv.passes (inv : Inv safety w) (elapsed : Nat) : Inv safety (w.passes elapsed) :=
  ⟨inv.toBase.passes elapsed,fun saved => (inv.saved saved).passes elapsed⟩

end Passing

section Tasks
variable {safety} {s : Schedule} {w : World} {taskType : TaskType} {e : Ending}

def IsRewrite (taskType : TaskType) : Prop := taskType = .RewriteContentsFull ∨ taskType = .RewriteContentsQuick

def IsDeletion (taskType : TaskType) : Prop := taskType = .DeleteOrphanedBlobsFull ∨ taskType = .DeleteOrphanedBlobsQuick

theorem runs_rewrite (kind : IsRewrite taskType) : w.runs taskType e =
    if e.effect then { w.passes e.elapsed with history := .moved (w.time + e.elapsed) :: w.history, unsaved := true }
    else w.passes e.elapsed := by
  rcases kind with rfl | rfl
  · rfl
  · rfl

theorem runs_deletion (kind : IsDeletion taskType) :
    w.runs taskType e = { w.passes e.elapsed with history := .deleting w.time :: w.history } := by
  rcases kind with rfl | rfl
  · rfl
  · rfl

theorem runs_other (rewrite : ¬ IsRewrite taskType) (delete : ¬ IsDeletion taskType) : w.runs taskType e = w.passes e.elapsed := by
  cases taskType <;> simp_all [World.runs,IsRewrite,IsDeletion]

theorem mem_rewriteRuns (kind : IsRewrite taskType) : s.Runs taskType ∈ rewriteRuns s := by
  rcases kind with rfl | rfl
  · exact .head _
  · exact .tail _ (.head _)

theorem exists_rewrite {time : Int} (positive : 0 < time) (early : time ≤ maxEndTime (rewriteRuns s)) :
    ∃ taskType, IsRewrite taskType ∧ ∃ r ∈ s.Runs taskType, r.Success ∧ time ≤ r.End := by
  obtain ⟨runs,known,r,member,success,early⟩ := exists_end_of_le positive early
  rcases List.mem_cons.mp known with rfl | known
  · exact ⟨_,.inl rfl,r,member,success,early⟩
  · obtain rfl := List.mem_singleton.mp known
    exact ⟨_,.inr rfl,r,member,success,early⟩

theorem rewriteRuns_other (rewrite : ¬ IsRewrite taskType) (info : RunInfo) : rewriteRuns (s.ReportRun taskType info) = rewriteRuns s := by
  simp only [rewriteRuns,reported_other (Ne.symm (not_or.mp rewrite).1),reported_other (Ne.symm (not_or.mp rewrite).2)]

theorem deleteRuns_other (delete : ¬ IsDeletion taskType) (info : RunInfo) : deleteRuns (s.ReportRun taskType info) = deleteRuns s := by
  simp only [deleteRuns,reported_other (Ne.symm (not_or.mp delete).1),reported_other (Ne.symm (not_or.mp delete).2)]

theorem not_deletion (kind : IsRewrite taskType) : ¬ IsDeletion taskType := by
  rcases kind with rfl | rfl
  · exact (nomatch ·)
  · exact (nomatch ·)

theorem decided_iff (rewritten deleted delay : Int) :
    (if rewritten = zeroTime ∨ delay = 0 then true else !(deleted < rewritten : Bool)) = true ↔
      rewritten = 0 ∨ delay = 0 ∨ rewritten ≤ deleted := by
  by_cases free : rewritten = zeroTime ∨ delay = 0
  · rw [if_pos free]
    exact ⟨fun _ => free.imp id .inl,fun _ => rfl⟩
  · rw [if_neg free,Bool.not_eq_true',decide_eq_false_iff_not,not_lt]
    exact ⟨fun late => .inr (.inr late),fun all => (all.resolve_left (not_or.mp free).1).resolve_left (not_or.mp free).2⟩

theorem shouldQuick_iff : shouldQuickRewriteContents s safety ↔ maxEndTime (rewriteRuns s) = 0 ∨
    safety.MinRewriteToOrphanDeletionDelay = 0 ∨ maxEndTime (rewriteRuns s) ≤ maxEndTime (deleteRuns s) := decided_iff ..

theorem shouldFull_iff : shouldFullRewriteContents s safety ↔ maxEndTime [s.Runs .RewriteContentsFull] = 0 ∨
    safety.MinRewriteToOrphanDeletionDelay = 0 ∨ maxEndTime [s.Runs .RewriteContentsFull] ≤ maxEndTime (deleteRuns s) := decided_iff ..

theorem full_of_quick (quick : shouldQuickRewriteContents s safety) : shouldFullRewriteContents s safety := by
  have fewer := maxEndTime_le (mem_rewriteRuns (s := s) (.inl rfl))
  have least := maxEndTime_nonneg [s.Runs .RewriteContentsFull]
  have decided := shouldQuick_iff.mp quick
  exact shouldFull_iff.mpr (by omega)

/-- If a full rewrite is decided on while a quick one is not, the latest rewrite is a quick one. -/
theorem quick_latest (waits : ¬ shouldQuickRewriteContents s safety) (full : shouldFullRewriteContents s safety) :
    maxEndTime (rewriteRuns s) ≤ maxEndTime [s.Runs .RewriteContentsQuick] := by
  have waits := mt shouldQuick_iff.mpr waits
  have decided := shouldFull_iff.mp full
  have least := maxEndTime_nonneg (rewriteRuns s)
  obtain ⟨kind,rewrite,r,recorded,success,latest⟩ :=
    exists_rewrite (lt_of_le_of_ne least (Ne.symm (not_or.mp waits).1)) le_rfl
  rcases rewrite with rfl | rfl
  · have := end_le_maxEndTime (List.mem_singleton_self (s.Runs .RewriteContentsFull)) recorded success
    omega
  · exact latest.trans (end_le_maxEndTime (.head _) recorded success)

/-- When it is time to delete, every rewrite that moved contents is long enough ago. -/
theorem Tracks.deletable (base : Base safety w) (tracks : Tracks safety s w)
    (ready : ∃ time ≤ w.time, shouldDeleteOrphanedPacks s safety time) {ended : Int} (moved : .moved ended ∈ w.history) :
    ended + safety.MinRewriteToOrphanDeletionDelay ≤ w.time := by
  obtain ⟨time,before,decided⟩ := ready
  rcases tracks ended moved with known | old
  · have positive := (base.past ended moved).1
    have next : nextBlobDeleteTime s safety = maxEndTime (rewriteRuns s) + safety.MinRewriteToOrphanDeletionDelay :=
      if_neg (by unfold zeroTime; omega)
    have reached : ¬ time < nextBlobDeleteTime s safety := by simpa [shouldDeleteOrphanedPacks] using decided
    omega
  · exact old

/-- A rewrite that failed leaves no later end in the history. -/
theorem failed_rewrite {info : RunInfo} (failed : info.Success = false) :
    maxEndTime (rewriteRuns (s.ReportRun taskType info)) ≤ maxEndTime (rewriteRuns s) := by
  by_contra later
  have positive : 0 < maxEndTime (rewriteRuns (s.ReportRun taskType info)) := by
    have := maxEndTime_nonneg (rewriteRuns s)
    omega
  obtain ⟨kind',rewrite,r,member,success,early⟩ := exists_rewrite positive le_rfl
  rcases mem_reported member with ⟨rfl,_⟩ | older
  · rw [failed] at success
    contradiction
  · have := end_le_maxEndTime (mem_rewriteRuns rewrite) older success
    omega

theorem Delayed.cons {history : List Event} (delayed : Delayed safety history) {event : Event}
    (late : ∀ started, event = .deleting started → ∀ ended, .moved ended ∈ history →
      ended + safety.MinRewriteToOrphanDeletionDelay ≤ started) : Delayed safety (event :: history) := by
  intro newer started older split
  cases newer with
  | nil =>
    obtain ⟨rfl,rfl⟩ := List.cons.inj split
    exact late started rfl
  | cons first newer => exact delayed newer started older (List.cons.inj split).2

/-- A rewrite that is decided on is known to the schedule it is recorded in if it succeeds, and if it fails the schedule
has contents rewritten first or knew of all other rewrites. -/
theorem Inv.rewritten (inv : Inv safety w) (covers : Covers safety s w) (kind : IsRewrite taskType)
    (decided : shouldQuickRewriteContents s safety ∨ taskType = .RewriteContentsFull ∧ shouldFullRewriteContents s safety)
    (succeeds : shouldQuickRewriteContents s safety ∨ (e.effect → e.success)) :
    Inv safety (w.runs taskType e) ∧ Covers safety (s.ReportRun taskType ⟨w.time,w.time + e.elapsed,e.success⟩) (w.runs taskType e) ∧
      (e.success → Tracks safety (s.ReportRun taskType ⟨w.time,w.time + e.elapsed,e.success⟩) (w.runs taskType e)) := by
  have before := inv.passes e.elapsed
  have moved : Inv safety (w.runs taskType e) ∧ (w.runs taskType e).time = w.time + e.elapsed ∧
      ∀ ended, .moved ended ∈ (w.runs taskType e).history → e.effect ∧ ended = w.time + e.elapsed ∨ .moved ended ∈ w.history := by
    rw [runs_rewrite kind]
    split
    next effect =>
      have split {ended : Int} (member : .moved ended ∈ Event.moved (w.time + e.elapsed) :: w.history) :
          e.effect ∧ ended = w.time + e.elapsed ∨ .moved ended ∈ w.history :=
        (List.mem_cons.mp member).imp (fun first => ⟨effect,Event.moved.inj first⟩) id
      refine ⟨⟨⟨before.positive,?_,before.delayed.cons nofun⟩,nofun⟩,rfl,fun ended => split⟩
      intro ended member
      rcases split member with ⟨_,rfl⟩ | older
      · exact ⟨before.positive,le_rfl⟩
      · exact before.past ended older
    next => exact ⟨before,rfl,fun _ => .inr⟩
  obtain ⟨inv',time,moved⟩ := moved
  have known : e.success → Tracks safety (s.ReportRun taskType ⟨w.time,w.time + e.elapsed,e.success⟩) (w.runs taskType e) := by
    intro success ended member
    refine .inl (le_trans ?_ (end_le_maxEndTime (mem_rewriteRuns kind) reported_self success))
    exact time ▸ (inv'.past ended member).2
  refine ⟨inv',?_,known⟩
  by_cases success : e.success
  · exact .inr (known success)
  · have fewer : maxEndTime (rewriteRuns (s.ReportRun taskType ⟨w.time,w.time + e.elapsed,e.success⟩)) ≤ maxEndTime (rewriteRuns s) :=
      failed_rewrite (by simpa using success)
    by_cases free : shouldQuickRewriteContents s safety
    · refine .inl (shouldQuick_iff.mpr ?_)
      rw [deleteRuns_other (not_deletion kind)]
      have least := maxEndTime_nonneg (rewriteRuns (s.ReportRun taskType ⟨w.time,w.time + e.elapsed,e.success⟩))
      have := shouldQuick_iff.mp free
      omega
    · obtain ⟨rfl,full⟩ := decided.resolve_left free
      refine .inr ?_
      intro ended member
      rcases moved ended member with ⟨effect,_⟩ | older
      · exact absurd ((succeeds.resolve_left free) effect) success
      · rcases covers.resolve_left free ended older with early | old
        · have quick := quick_latest free full
          exact .inl (early.trans (quick.trans (maxEndTime_le (mem_rewriteRuns (.inr rfl)))))
        · exact .inr (by rw [time]; omega)

end Tasks

section Programs
variable {safety} {s : Schedule} {w : World} {taskType : TaskType} {α β : Type}

theorem Tracks.saving (tracks : Tracks safety s w) (s' : Schedule) (e : Ending) : Tracks safety s (act w (.SetSchedule s') e).1 := by
  simp only [act]
  split
  · exact tracks.passes e.elapsed
  · exact tracks.passes e.elapsed

theorem Inv.saving (inv : Inv safety w) (covers : Covers safety s w) (e : Ending) : Inv safety (act w (.SetSchedule s) e).1 := by
  have before := inv.passes e.elapsed
  simp only [act]
  split
  · exact ⟨⟨before.positive,before.past,before.delayed⟩,fun _ => covers.passes e.elapsed⟩
  · exact before

/-- A task other than a rewrite keeps what a schedule tracks. -/
theorem Inv.ran (inv : Inv safety w) (tracks : Tracks safety s w) (other : ¬ IsRewrite taskType)
    (ready : IsDeletion taskType → ∃ time ≤ w.time, shouldDeleteOrphanedPacks s safety time) (e : Ending) :
    Inv safety (w.runs taskType e) ∧ Tracks safety (s.ReportRun taskType ⟨w.time,w.time + e.elapsed,e.success⟩) (w.runs taskType e) := by
  have before := inv.passes e.elapsed
  have later := tracks.passes e.elapsed
  have known {w' : World} (tracked : Tracks safety s w') :
      Tracks safety (s.ReportRun taskType ⟨w.time,w.time + e.elapsed,e.success⟩) w' := by
    rw [Tracks,rewriteRuns_other other]
    exact tracked
  by_cases delete : IsDeletion taskType
  · rw [runs_deletion delete]
    have old {ended : Int} (member : .moved ended ∈ Event.deleting w.time :: w.history) : .moved ended ∈ w.history :=
      List.mem_of_ne_of_mem (fun same : Event.moved ended = .deleting w.time => nomatch same) member
    refine ⟨⟨⟨before.positive,fun ended member => before.past ended (old member),before.delayed.cons ?_⟩,?_⟩,?_⟩
    · intro started same ended moved
      obtain rfl := Event.deleting.inj same
      exact tracks.deletable inv.toBase (ready delete) moved
    · intro saved
      exact (before.saved saved).imp id fun tracked ended member => tracked ended (old member)
    · exact known fun ended member => later ended (old member)
  · rw [runs_other other delete]
    exact ⟨before,known later⟩

/-- Where a program ends, a run is in order, and the schedule it answers with tracks the rewrites. -/
def Kept (safety : SafetyParameters) (w : World) (result : Option (Except Unit Schedule)) : Prop :=
  Inv safety w ∧ ∀ s, result = some (.ok s) → Tracks safety s w

/-- A condition that holds wherever a program stops in order. -/
def Stops (safety : SafetyParameters) (post : World → Option (Except Unit α) → Prop) : Prop :=
  ∀ w, Inv safety w → post w none ∧ ∀ e, post w (some (.error e))

theorem kept_stops : Stops safety (Kept safety) := fun _ inv => ⟨⟨inv,nofun⟩,fun _ => ⟨inv,nofun⟩⟩

theorem inv_stops : Stops (α := α) safety fun w _ => Inv safety w := fun _ inv => ⟨inv,fun _ => inv⟩

theorem pre_bind {p : Program Schedule} {f : Schedule → Program β} {post : World → Option (Except Unit β) → Prop}
    (stops : Stops safety post) (first : p.Pre act (Succeeds safety) (Kept safety) w)
    (rest : ∀ s w, Inv safety w → Tracks safety s w → (f s).Pre act (Succeeds safety) post w) :
    (p >>= f).Pre act (Succeeds safety) post w := by
  apply Query.Pre.bind
  apply first.mono
  intro w result kept
  match result with
  | some (.ok s) => exact rest s w kept.1 (kept.2 s rfl)
  | some (.error e) => exact (stops w kept.1).2 e
  | none => exact (stops w kept.1).1

theorem pre_answer (inv : Inv safety w) (tracks : Tracks safety s w) :
    (Query.answer s : Program Schedule).Pre act (Succeeds safety) (Kept safety) w := by
  refine ⟨inv,?_⟩
  intro s' same
  obtain rfl := Except.ok.inj (Option.some.inj same)
  exact tracks

theorem pre_ReportRun (inv : Inv safety w) (tracks : Tracks safety s w) (other : ¬ IsRewrite taskType)
    (ready : IsDeletion taskType → ∃ time ≤ w.time, shouldDeleteOrphanedPacks s safety time) :
    (ReportRun taskType s).Pre act (Succeeds safety) (Kept safety) w := by
  refine ⟨fun _ => ⟨inv,nofun⟩,?_⟩
  intro e _
  obtain ⟨inv,tracks⟩ := inv.ran tracks other ready e
  refine ⟨fun _ => ⟨inv,nofun⟩,?_⟩
  intro saving _
  change (if e.success then _ else _ : Program Schedule).Pre act (Succeeds safety) (Kept safety) _
  split
  · exact pre_answer (inv.saving (.inr tracks) saving) (tracks.saving _ saving)
  · exact ⟨inv.saving (.inr tracks) saving,nofun⟩

/-- After the rewriting of contents, if it is decided on, a schedule tracks the rewrites. -/
theorem pre_rewrite (inv : Inv safety w) (covers : Covers safety w.schedule w) (kind : IsRewrite taskType) {decided : Bool}
    (quick : decided = false → ¬ shouldQuickRewriteContents w.schedule safety)
    (reason : decided → shouldQuickRewriteContents w.schedule safety ∨
      taskType = .RewriteContentsFull ∧ shouldFullRewriteContents w.schedule safety) :
    (runIf decided taskType w.schedule).Pre act (Succeeds safety) (Kept safety) w := by
  rw [runIf]
  split
  next yes =>
    refine ⟨fun _ => ⟨inv,nofun⟩,?_⟩
    intro e succeeds
    have known : shouldQuickRewriteContents w.schedule safety ∨ (e.effect → e.success) := by
      rcases reason yes with free | ⟨rfl,_⟩
      · exact .inl free
      · by_cases free : shouldQuickRewriteContents w.schedule safety
        · exact .inl free
        · exact .inr fun effect => (succeeds effect).resolve_right free
    obtain ⟨inv,covers,tracks⟩ := inv.rewritten covers kind (reason yes) known
    refine ⟨fun _ => ⟨inv,nofun⟩,?_⟩
    intro saving _
    change (if e.success then _ else _ : Program Schedule).Pre act (Succeeds safety) (Kept safety) _
    split
    next success => exact pre_answer (inv.saving covers saving) ((tracks success).saving _ saving)
    next => exact ⟨inv.saving covers saving,nofun⟩
  next no => exact pre_answer inv (covers.resolve_left (quick (by simpa using no)))

theorem pre_runIf (inv : Inv safety w) (tracks : Tracks safety s w) {decided : Bool} (other : ¬ IsRewrite taskType)
    (ready : decided → IsDeletion taskType → ∃ time ≤ w.time, shouldDeleteOrphanedPacks s safety time) :
    (runIf decided taskType s).Pre act (Succeeds safety) (Kept safety) w := by
  rw [runIf]
  split
  next yes => exact pre_ReportRun inv tracks other (ready yes)
  next => exact pre_answer inv tracks

theorem pre_reportAll {types : List TaskType} (other : ∀ taskType ∈ types, ¬ IsRewrite taskType ∧ ¬ IsDeletion taskType)
    (inv : Inv safety w) (tracks : Tracks safety s w) : (reportAll types s).Pre act (Succeeds safety) (Kept safety) w := by
  induction types generalizing s w with
  | nil => exact pre_answer inv tracks
  | cons taskType types ih =>
    rw [reportAll]
    obtain ⟨rewrite,delete⟩ := other taskType (by simp)
    refine pre_bind kept_stops (pre_ReportRun inv tracks rewrite fun yes => absurd yes delete) ?_
    intro s w inv tracks
    exact ih (fun taskType member => other taskType (by simp [member])) inv tracks

theorem pre_now {f : Int → Program β} {post : World → Option (Except Unit β) → Prop} (stops : Stops safety post) (inv : Inv safety w)
    (rest : ∀ elapsed : Nat, Inv safety (w.passes elapsed) → (f (w.time + elapsed)).Pre act (Succeeds safety) post (w.passes elapsed)) :
    (now >>= f).Pre act (Succeeds safety) post w :=
  ⟨fun _ => (stops w inv).1,fun e _ => rest e.elapsed (inv.passes e.elapsed)⟩

theorem pre_EpochManager {f : Bool → Program β} {post : World → Option (Except Unit β) → Prop} (stops : Stops safety post) (inv : Inv safety w)
    (rest : ∀ (elapsed : Nat) (enabled : Bool), Inv safety (w.passes elapsed) →
      (f enabled).Pre act (Succeeds safety) post (w.passes elapsed)) :
    (EpochManager >>= f).Pre act (Succeeds safety) post w := by
  refine ⟨fun _ => (stops w inv).1,?_⟩
  intro e _
  cases success : e.success with
  | true =>
    simp only [act,success,if_true]
    exact rest e.elapsed e.effect (inv.passes e.elapsed)
  | false =>
    simp only [act,success,Bool.false_eq_true,if_false]
    exact (stops _ (inv.passes e.elapsed)).2 ()

theorem pre_GetSchedule {f : Schedule → Program β} {post : World → Option (Except Unit β) → Prop} (stops : Stops safety post)
    (inv : Inv safety w) (rest : ∀ elapsed : Nat, Inv safety (w.passes elapsed) →
      (f w.schedule).Pre act (Succeeds safety) post (w.passes elapsed)) :
    (GetSchedule >>= f).Pre act (Succeeds safety) post w := by
  refine ⟨fun _ => (stops w inv).1,?_⟩
  intro e _
  cases success : e.success with
  | true =>
    simp only [act,success,if_true]
    exact rest e.elapsed (inv.passes e.elapsed)
  | false =>
    simp only [act,success,Bool.false_eq_true,if_false]
    exact (stops _ (inv.passes e.elapsed)).2 ()

/-- Between runs, and while the schedule covers a run's rewrites. -/
def Settled (safety : SafetyParameters) (w : World) : Prop := Inv safety w ∧ Covers safety w.schedule w

theorem Settled.passes (settled : Settled safety w) (elapsed : Nat) : Settled safety (w.passes elapsed) :=
  ⟨settled.1.passes elapsed,settled.2.passes elapsed⟩

theorem Settled.saving (settled : Settled safety w) (covers : Covers safety s w) (e : Ending) :
    Settled safety (act w (.SetSchedule s) e).1 := by
  refine ⟨settled.1.saving covers e,?_⟩
  simp only [act]
  split
  · exact covers.passes e.elapsed
  · exact settled.2.passes e.elapsed

/-- A collection of garbage leaves the schedule as good as it was. -/
theorem pre_collect (settled : Settled safety w) {f : Schedule → Program Unit}
    (rest : ∀ s w, Settled safety w → (f s).Pre act (Succeeds safety) (fun w _ => Inv safety w) w) :
    (GetSchedule >>= fun s => ReportRun .SnapshotGarbageCollection s >>= f).Pre act (Succeeds safety) (fun w _ => Inv safety w) w := by
  apply pre_GetSchedule inv_stops settled.1
  intro elapsed inv
  refine ⟨fun _ => inv,?_⟩
  intro e _
  have later := (settled.passes elapsed).passes e.elapsed
  have covers : Covers safety (w.schedule.ReportRun .SnapshotGarbageCollection
      ⟨(w.passes elapsed).time,(w.passes elapsed).time + e.elapsed,e.success⟩) ((w.passes elapsed).passes e.elapsed) := later.2
  refine ⟨fun _ => later.1,?_⟩
  intro saving _
  have kept := later.saving covers saving
  change ((if e.success then _ else _ : Program Schedule) >>= f).Pre act (Succeeds safety) _ _
  split
  · exact rest _ _ kept
  · exact kept.1

variable {p : Params}

theorem pre_updateSchedule {mode : Mode} (settled : Settled safety w) :
    (updateSchedule p mode).Pre act (Succeeds safety) (fun w _ => Settled safety w) w := by
  have save (full quick : Int) (elapsed elapsed' : Nat) :
      (SetSchedule ⟨full,quick,w.schedule.Runs⟩).Pre act (Succeeds safety) (fun w _ => Settled safety w) ((w.passes elapsed).passes elapsed') := by
    have later := (settled.passes elapsed).passes elapsed'
    have covers : Covers safety ⟨full,quick,w.schedule.Runs⟩ ((w.passes elapsed).passes elapsed') := later.2
    refine ⟨fun _ => later,?_⟩
    intro e _
    have kept := later.saving covers e
    cases (act ((w.passes elapsed).passes elapsed') (.SetSchedule ⟨full,quick,w.schedule.Runs⟩) e).2
    case done => exact kept
    all_goals exact kept
  refine ⟨fun _ => settled,?_⟩
  intro e _
  cases success : e.success with
  | false =>
    simp only [act,success,Bool.false_eq_true,if_false]
    exact settled.passes e.elapsed
  | true =>
    simp only [act,success,if_true]
    refine ⟨fun _ => settled.passes e.elapsed,?_⟩
    intro clock _
    cases mode with
    | full => exact save _ _ e.elapsed clock.elapsed
    | quick => exact save _ _ e.elapsed clock.elapsed

theorem pre_runTaskDropDeletedContentsFull (inv : Inv safety w) (tracks : Tracks safety s w) :
    (runTaskDropDeletedContentsFull safety s).Pre act (Succeeds safety) (Kept safety) w := by
  have rest (time : Int) {w : World} (inv : Inv safety w) (tracks : Tracks safety s w) :
      (if time = zeroTime then .answer s else ReportRun .DropDeletedContentsFull s : Program Schedule).Pre act (Succeeds safety)
        (Kept safety) w := by
    split
    · exact pre_answer inv tracks
    · exact pre_ReportRun inv tracks (by simp [IsRewrite]) (by simp [IsDeletion])
  rw [runTaskDropDeletedContentsFull]
  split
  · exact rest _ inv tracks
  · exact pre_now kept_stops inv fun elapsed later => rest _ later (tracks.passes elapsed)

theorem pre_runTaskEpochMaintenanceQuick (inv : Inv safety w) (tracks : Tracks safety s w) :
    (runTaskEpochMaintenanceQuick s).Pre act (Succeeds safety) (Kept safety) w := by
  apply pre_EpochManager kept_stops inv
  intro elapsed enabled later
  split
  · exact pre_reportAll (by simp [IsRewrite,IsDeletion]) later (tracks.passes elapsed)
  · exact pre_answer later (tracks.passes elapsed)

theorem pre_runTaskEpochMaintenanceFull (inv : Inv safety w) (tracks : Tracks safety s w) :
    (runTaskEpochMaintenanceFull s).Pre act (Succeeds safety) (Kept safety) w := by
  apply pre_EpochManager kept_stops inv
  intro elapsed enabled later
  split
  · exact pre_reportAll (by simp [IsRewrite,IsDeletion]) later (tracks.passes elapsed)
  · exact pre_answer later (tracks.passes elapsed)

theorem pre_runQuickMaintenance (settled : Settled safety w) :
    (runQuickMaintenance safety).Pre act (Succeeds safety) (fun w _ => Inv safety w) w := by
  apply pre_EpochManager inv_stops settled.1
  intro elapsed enabled inv
  split
  · exact inv
  · apply pre_GetSchedule inv_stops inv
    intro elapsed' inv
    refine pre_bind inv_stops (pre_rewrite inv ((settled.passes elapsed).passes elapsed').2 (.inr rfl) ?_ .inl) ?_
    · exact fun no yes => Bool.false_ne_true (no.symm.trans yes)
    intro s w inv tracks
    apply pre_now inv_stops inv
    intro elapsed inv
    refine pre_bind inv_stops (pre_runIf inv (tracks.passes elapsed) ?_ fun decided _ => ⟨_,le_rfl,decided⟩) ?_
    · split
      · exact (nomatch ·)
      · exact (nomatch ·)
    intro s w inv tracks
    refine pre_bind inv_stops (pre_runTaskEpochMaintenanceQuick inv tracks) ?_
    intro s w inv tracks
    refine pre_bind inv_stops (pre_ReportRun inv tracks (by simp [IsRewrite]) (by simp [IsDeletion])) ?_
    intro s w inv tracks
    exact pre_bind inv_stops (pre_ReportRun inv tracks (by simp [IsRewrite]) (by simp [IsDeletion])) fun _ _ inv _ => inv

theorem pre_runFullMaintenance (settled : Settled safety w) :
    (runFullMaintenance safety p).Pre act (Succeeds safety) (fun w _ => Inv safety w) w := by
  apply pre_GetSchedule inv_stops settled.1
  intro elapsed inv
  refine pre_bind inv_stops (pre_rewrite inv (settled.passes elapsed).2 (.inl rfl) ?_ fun yes => .inr ⟨rfl,yes⟩) ?_
  · exact fun no yes => Bool.false_ne_true (no.symm.trans (full_of_quick yes))
  intro s w inv tracks
  refine pre_bind inv_stops (pre_runTaskDropDeletedContentsFull inv tracks) ?_
  intro s w inv tracks
  apply pre_now inv_stops inv
  intro elapsed inv
  refine pre_bind inv_stops (pre_runIf inv (tracks.passes elapsed) (by simp [IsRewrite]) fun decided _ => ⟨_,le_rfl,decided⟩) ?_
  intro s w inv tracks
  refine pre_bind inv_stops (pre_runIf inv tracks (by simp [IsRewrite]) (by simp [IsDeletion])) ?_
  intro s w inv tracks
  refine pre_bind inv_stops (pre_runTaskEpochMaintenanceFull inv tracks) ?_
  intro s w inv tracks
  exact pre_bind inv_stops (pre_ReportRun inv tracks (by simp [IsRewrite]) (by simp [IsDeletion])) fun _ _ inv _ => inv

theorem pre_Run {mode : Mode} (settled : Settled safety w) :
    (Run safety p mode).Pre act (Succeeds safety) (fun w _ => Inv safety w) w := by
  apply Query.Pre.bind
  apply (pre_updateSchedule settled).mono
  intro w result settled
  match result with
  | none => exact settled.1
  | some (.error e) => exact settled.1
  | some (.ok ()) =>
    refine ⟨fun _ => settled.1,?_⟩
    intro e _
    have later := settled.passes e.elapsed
    cases success : e.success with
    | false =>
      simp only [act,success,Bool.false_eq_true,if_false]
      exact later.1
    | true =>
      simp only [act,success,if_true]
      cases mode with
      | quick => exact pre_runQuickMaintenance later
      | full => exact pre_collect later fun _ _ settled => pre_runFullMaintenance settled

end Programs

/-- A world before any maintenance. -/
def World.Fresh (w : World) : Prop := 0 < w.time ∧ w.schedule.Runs = (fun _ => []) ∧ w.history = []

def Between (safety : SafetyParameters) (w : World) : Prop := Base safety w ∧ Covers safety w.schedule w

theorem World.Fresh.between {safety : SafetyParameters} {w : World} (fresh : w.Fresh) : Between safety w := by
  obtain ⟨positive,runs,history⟩ := fresh
  refine ⟨⟨positive,by simp [history],?_⟩,.inr (by simp [Tracks,history])⟩
  intro newer started older split
  simp [history] at split

/-- While no full rewrite that follows a quick one fails or is forgotten, no deletion starts too early after a rewrite. -/
theorem orphans_kept (safety : SafetyParameters) (start w : World) (labels : List Label) (fresh : start.Fresh)
    (recorded : Meets (step safety) (Recorded safety) start labels) (reached : run (step safety) start labels = some w) :
    Delayed safety w.history := by
  have between : Between safety w := by
    refine invariant ?_ fresh.between recorded reached
    rintro w l w' ⟨base,covers⟩ ⟨succeeds,saved⟩ taken
    obtain rfl := Option.some.inj taken
    have begun : Settled safety w.begun := ⟨⟨⟨base.positive,base.past,base.delayed⟩,fun _ => covers⟩,covers⟩
    have inv : Inv safety (l.run safety w) := (pre_Run begun).steps succeeds
    have covered : Covers safety (l.run safety w).schedule (l.run safety w) := by
      rcases saved with saved | free
      · exact inv.saved saved
      · exact .inl free
    exact ⟨inv.toBase.passes l.pause,covered.passes l.pause⟩
  exact between.1.delayed

section Examples

instance (safety : SafetyParameters) (w : World) (l : Label) : Decidable (Recorded safety w l) :=
  inferInstanceAs (Decidable (_ ∧ _))

def ten : SafetyParameters := ⟨true,0,0,10⟩

def someParams : Params := ⟨⟨true,1⟩,⟨true,1⟩,false⟩

def firstWorld : World := ⟨1,.empty,[],false⟩

def good : Ending := ⟨0,true,false⟩

/-- A quick rewrite moves contents. -/
def quickRewrite : Label := ⟨.quick,someParams,List.replicate 6 good ++ [⟨1,true,true⟩] ++ List.replicate 7 good,8⟩

/-- A full rewrite fails after it moved contents. -/
def failedRewrite : Label := ⟨.full,someParams,List.replicate 8 good ++ [⟨1,false,true⟩,good],1⟩

/-- Orphaned blobs are deleted. -/
def quickDeletion : Label := ⟨.quick,someParams,List.replicate 14 good,0⟩

theorem orphans_kept_quick : ∃ w, run (step ten) firstWorld [quickRewrite,quickDeletion] = some w ∧
    Delayed ten w.history :=
  ⟨_,rfl,orphans_kept ten firstWorld _ [quickRewrite,quickDeletion] ⟨by decide,rfl,rfl⟩ (by decide +kernel) rfl⟩

/-- A deletion that waits for a quick rewrite does not wait for a full one that failed meanwhile. -/
theorem failed_rewrite_forgotten : ¬ ∀ (safety : SafetyParameters) (start w : World) (labels : List Label), start.Fresh →
    run (step safety) start labels = some w → Delayed safety w.history := by
  intro claim
  have delayed := claim ten firstWorld _ [quickRewrite,failedRewrite,quickDeletion] ⟨by decide,rfl,rfl⟩ rfl
  exact absurd (delayed [] 12 [.moved 11,.moved 2] rfl 11 (by decide)) (by decide)

end Examples

end Vbe.Maintenance
