import Vbe.Content.Resolution
import Vbe.Content.Sequential

/-! What lookups answer in runs of one call after another without storage failures.
In every state the entries a lookup sees get strictly older from place to place, and
from this follow exactly when a flush keeps the answer for a content and when a
deletion takes effect. -/
namespace Vbe.Content
open Vbe.Index WriteManager Vbe.Library.Runs

section Effects
variable {codec : Codec} {env : Env} {bm bm1 bm' : WriteManager} {t : Thread} {place : Place} {c : ID}

/-- No entry a lookup sees is later than the time an addition starts from. -/
def UpToDate (bm : WriteManager) (a : Addition) : Prop :=
  ∀ y ∈ (bm.layers a.contentID).seen bm.deletionWatermark, y.timestampSeconds ≤ a.previousWriteTime

theorem lt_contentWriteTime (env : Env) (previous : Int) : previous < contentWriteTime env previous := by
  unfold contentWriteTime
  split <;> omega

/-- Retries and flushes drop entries from what a lookup sees. -/
theorem WriteManager.LockedSteps.seen_sublist (steps : LockedSteps env bm bm1) (wf : bm.WellFormed) (noFailure : env.NoFailure)
    (writing : bm.writingPacks = []) (failed : bm.failedPacks = [])
    (ordered : (bm.layers c).Ordered bm.deletionWatermark) :
    ((bm1.layers c).seen bm.deletionWatermark).Sublist ((bm.layers c).seen bm.deletionWatermark) := by
  have moves : Layers.Moves False (bm.layers c) (bm1.layers c) :=
    steps.layers wf c fun pp _ _ refused => by simp [noFailure.1] at refused
  exact (moves.seen_sublist (by simp [WriteManager.layers,writing]) (by simp [WriteManager.layers,failed]) ordered).1

theorem UpToDate.locked {a : Addition} (upToDate : UpToDate bm a) (steps : LockedSteps env bm bm1) (wf : bm.WellFormed)
    (noFailure : env.NoFailure) (writing : bm.writingPacks = []) (failed : bm.failedPacks = [])
    (ordered : ∀ c, (bm.layers c).Ordered bm.deletionWatermark) : UpToDate bm1 a := by
  have fewer := steps.seen_sublist wf noFailure writing failed (ordered a.contentID)
  intro y member
  rw [(steps.surroundings wf).deletionWatermark] at member
  exact upToDate y (fewer.subset member)

/-- A lookup takes over the time of the latest entry. -/
theorem Reads.upToDate {a : Addition} (reads : Reads codec bm t a)
    (ordered : ∀ c, (bm.layers c).Ordered bm.deletionWatermark) : UpToDate bm a := by
  have latest {bi : Info} (found : bm.ContentInfo a.contentID = some bi) (time : a.previousWriteTime = bi.timestampSeconds) :
      UpToDate bm a := by
    rw [ContentInfo_eq] at found
    intro y member
    rw [time]
    exact (ordered a.contentID).le_answer found y member
  cases reads with
  | written _ _ _ _ _ _ _ _ _ _ time =>
    unfold lastWriteTime at time
    cases found : bm.ContentInfo a.contentID with
    | none =>
      rw [ContentInfo_eq] at found
      intro y member
      rw [List.head?_eq_none_iff.mp found] at member
      contradiction
    | some bi =>
      rw [found] at time
      exact latest found time
  | rewritten _ bi _ _ found _ _ time => exact latest (ContentInfo_of_getContentDataAndInfo found) time
  | undeleted _ bi _ _ found _ _ _ time => exact latest (ContentInfo_of_getContentDataAndInfo found) time

theorem Layers.deleteTarget_eq {v : Layers} {deletionWatermark : Int} (writing : v.writing = []) :
    v.deleteTarget deletionWatermark = (v.publish none).answer deletionWatermark := by
  rw [Layers.answer_uncommitted (v := v.publish none) writing]
  simp [Layers.deleteTarget,Layers.publish,writing]

theorem Published.ordered {x : Info} {moved : Bool} (published : Published bm1 bm' x moved)
    (writing : bm1.writingPacks = []) (ordered : ∀ c, (bm1.layers c).Ordered bm1.deletionWatermark)
    (later : ∀ y ∈ (bm1.layers x.contentID).seen bm1.deletionWatermark, y.timestampSeconds < x.timestampSeconds) :
    (bm'.layers c).Ordered bm1.deletionWatermark := by
  have entered : (if c = x.contentID then (bm1.layers c).publish (some x) else bm1.layers c).Ordered
      bm1.deletionWatermark := by
    split
    next same =>
      subst same
      exact (ordered _).publish fun y member => later y (Layers.seen_publish_none.subset member)
    next => exact ordered c
  have none : (if c = x.contentID then (bm1.layers c).publish (some x) else bm1.layers c).writing = [] := by
    split <;> simp [Layers.publish,WriteManager.layers,writing]
  rw [published.layers c]
  split
  · unfold Layers.Ordered
    rw [Layers.seen_startWriting none]
    exact entered
  · exact entered

/-- What a deletion leaves is ordered as well. -/
theorem DeleteContent_ordered (wf : bm.WellFormed) (fresh : FreshNames env bm) {d : ID} {ok : Bool}
    (done : bm.DeleteContent env d = (bm',ok)) (writing : bm.writingPacks = [])
    (ordered : ∀ c, (bm.layers c).Ordered bm.deletionWatermark) : (bm'.layers c).Ordered bm.deletionWatermark := by
  have none : (bm.layers d).writing = [] := by simp [WriteManager.layers,writing]
  have replaced {x : Option Info} (republished : Republished bm bm' d x)
      (own : ((bm.layers d).publish x).Ordered bm.deletionWatermark) : (bm'.layers c).Ordered bm.deletionWatermark := by
    rw [republished.layers c]
    split
    next same => exact same ▸ own
    next => exact ordered c
  rcases DeleteContent_spec wf fresh d with ⟨bm1,_,shape,_,_,republished⟩ |
    ⟨_,⟨shape,_⟩ | ⟨y,target,⟨shape,_⟩ | ⟨bm1,shape,_,republished⟩⟩⟩
  · cases shape.symm.trans done
    exact replaced republished ((ordered d).sublist Layers.seen_publish_none)
  · cases shape.symm.trans done
    exact ordered c
  · cases shape.symm.trans done
    exact ordered c
  · cases shape.symm.trans done
    refine replaced republished ((ordered d).publish fun z member => ?_)
    rw [Layers.deleteTarget_eq none] at target
    have rest : ((bm.layers d).publish Option.none).Ordered bm.deletionWatermark :=
      (ordered d).sublist Layers.seen_publish_none
    exact lt_of_le_of_lt (rest.le_answer target z member) (lt_contentWriteTime env y.timestampSeconds)

theorem Effect.ordered (effect : Effect codec env bm t bm' place) (wf : bm.WellFormed) (possible : env.Possible bm)
    (aligned : t.place.Aligned bm.writingPacks) (noFailure : env.NoFailure) (failed : bm.failedPacks = [])
    (ordered : ∀ c, (bm.layers c).Ordered bm.deletionWatermark)
    (upToDate : ∀ a, t.place.addition = some a → UpToDate bm a) :
    ∀ c, (bm'.layers c).Ordered bm'.deletionWatermark := by
  intro c
  rw [(effect.settings wf possible).1]
  have locked {bm1 : WriteManager} (steps : LockedSteps env bm bm1) (writing : bm.writingPacks = []) :
      (bm1.layers c).Ordered bm.deletionWatermark :=
    (ordered c).sublist (steps.seen_sublist wf noFailure writing failed (ordered c))
  have publishing {a : Addition} {bm1 : WriteManager} {x : Info} {moved : Bool}
      (standing : t.place = .publish a ∧ lostRace bm a = false ∨ t.place = .publishWait a)
      (steps : LockedSteps env bm bm1) (entry : EntryFor codec env bm1 a x bm') (published : Published bm1 bm' x moved) :
      (bm'.layers c).Ordered bm.deletionWatermark := by
    have writing : bm.writingPacks = [] := by
      refine aligned.of_fallible ?_
      rcases standing with ⟨here,_⟩ | here <;> rw [here] <;> rfl
    have addition : t.place.addition = some a := by
      rcases standing with ⟨here,_⟩ | here <;> rw [here] <;> rfl
    have watermark := (steps.surroundings wf).deletionWatermark
    have before : ∀ c, (bm1.layers c).Ordered bm1.deletionWatermark := fun c =>
      watermark ▸ (ordered c).sublist (steps.seen_sublist wf noFailure writing failed (ordered c))
    rw [← watermark]
    refine published.ordered ((steps.surroundings wf).writing.trans writing) before fun y member => ?_
    rw [entry.contentID] at member
    rw [entry.time]
    exact lt_of_le_of_lt ((upToDate a addition).locked steps wf noFailure writing failed ordered y member)
      (lt_contentWriteTime env a.previousWriteTime)
  cases effect with
  | failed bm' steps fallible => exact locked steps (aligned.of_fallible fallible)
  | retried bm' d steps _ here => exact locked steps (aligned.of_fallible (by rw [here]; rfl))
  | flushWaits next bm' here steps => exact locked steps (aligned.of_fallible (by rw [here]; rfl))
  | flushed next bm1 bm' _ idle first second => exact locked (Relation.ReflTransGen.trans first second) idle
  | published a bm1 bm' x standing steps _ _ entry published => exact publishing standing steps entry published
  | publishedFull a bm1 bm' x pp standing steps _ _ entry published => exact publishing standing steps entry published
  | uploaded d before pp after pp' blobs stored _ split prepared =>
    rw [uploaded_layers split prepared blobs c]
    exact ordered c
  | indexed d before pp after built here split indexed =>
    have alone : (bm.layers c).writing.length ≤ 1 := by
      simp only [Place.Aligned,here] at aligned
      obtain ⟨qq,writing,_⟩ := aligned
      simp only [WriteManager.layers,writing]
      exact List.length_filterMap_le _ _
    exact (ordered c).sublist (((processed_layers split c False).1 built indexed).seen_sublist alone
      (ordered c))
  | notStored d before pp after _ split =>
    have fewer : ((withProcessed bm (before ++ after) (bm.failedPacks ++ [pp]) bm.packIndexBuilder).layers c).seen
        bm.deletionWatermark |>.Sublist ((bm.layers c).seen bm.deletionWatermark) := by
      simp only [Layers.seen,WriteManager.layers,withProcessed,split,entriesOf_append,entriesOf_cons]
      refine List.Sublist.append_left (List.Sublist.append_right ?_ _) _
      exact List.Sublist.append_left (List.sublist_append_right _ _) _
    exact (ordered c).sublist fewer
  | deleted d bm' ok _ here done =>
    have writing : bm.writingPacks = [] := by simpa only [Place.Aligned,here] using aligned
    exact DeleteContent_ordered wf (FreshNames.of_possible possible) done writing ordered
  | _ => exact ordered c

theorem Effect.upToDate (effect : Effect codec env bm t bm' place) (wf : bm.WellFormed)
    (aligned : t.place.Aligned bm.writingPacks) (noFailure : env.NoFailure) (failed : bm.failedPacks = [])
    (ordered : ∀ c, (bm.layers c).Ordered bm.deletionWatermark)
    (upToDate : ∀ a, t.place.addition = some a → UpToDate bm a) :
    ∀ a, place.addition = some a → UpToDate bm' a := by
  intro a addition
  cases effect with
  | read b reads =>
    cases Option.some.inj addition
    exact reads.upToDate ordered
  | due b here => exact upToDate a (here ▸ addition)
  | notDue b here => exact upToDate a (here ▸ addition)
  | waits b here => exact upToDate a (here ▸ addition)
  | flushWaits next bm' here steps =>
    exact (upToDate a (here ▸ addition)).locked steps wf noFailure (aligned.of_fallible (by rw [here]; rfl)) failed ordered
  | flushed next bm1 bm' standing idle first second =>
    cases next with
    | none => contradiction
    | some b =>
      have before : t.place.addition = some a := by rcases standing with ⟨here,_⟩ | ⟨here,_⟩ <;> exact here ▸ addition
      exact (upToDate a before).locked (Relation.ReflTransGen.trans first second) wf noFailure idle failed ordered
  | _ => contradiction

/-- Where nothing is refused, no pack fails. -/
theorem Effect.noneFailed (effect : Effect codec env bm t bm' place) (wf : bm.WellFormed) (possible : env.Possible bm)
    (noFailure : env.NoFailure) (accepted : ∀ c name, t.place ≠ .processResult c name false)
    (failed : bm.failedPacks = []) :
    bm'.failedPacks = [] ∧ ∀ c name, place ≠ .processResult c name false := by
  have locked {bm1 : WriteManager} (steps : LockedSteps env bm bm1) : bm1.failedPacks = [] :=
    steps.noneFailed wf noFailure.1 failed
  cases effect with
  | failed bm' steps => exact ⟨locked steps,by simp⟩
  | retried bm' d steps => exact ⟨locked steps,by simp⟩
  | flushWaits next bm' _ steps => exact ⟨locked steps,by simp⟩
  | flushed next bm1 bm' _ _ first second =>
    exact ⟨locked (Relation.ReflTransGen.trans first second),by cases next <;> simp [Place.afterFlush]⟩
  | published a bm1 bm' x _ steps _ _ _ published => exact ⟨published.same.failed.trans (locked steps),by simp⟩
  | publishedFull a bm1 bm' x pp _ steps _ _ _ published => exact ⟨published.same.failed.trans (locked steps),by simp⟩
  | uploaded d before pp after pp' blobs stored _ _ _ outcome =>
    refine ⟨failed,fun c name same => ?_⟩
    simp only [Place.processResult.injEq] at same
    rcases outcome with ⟨stored,_⟩ | ⟨_,refused,_⟩
    · simp [stored] at same
    · simp [noFailure.1] at refused
  | notStored d before pp after here => exact absurd here (accepted d _)
  | deleted d bm' ok _ _ done =>
    refine ⟨?_,by simp⟩
    rcases DeleteContent_cases wf (FreshNames.of_possible possible) done with same | ⟨x,republished⟩
    · exact same ▸ failed
    · exact republished.same.failed.trans failed
  | _ => exact ⟨failed,by simp⟩

end Effects

section Invariant
variable {codec : Codec}

/-- Calls and their steps, with nothing refused. -/
def Label.Quiet : Label → Prop
  | .begin _ => True
  | .run _ env => env.NoFailure
  | .refresh _ => False

/-- The steps of calls made one after another with nothing refused. -/
def Undisturbed (s : Machine) (l : Label) : Prop := l.Quiet ∧ Sequential s l

structure ViewInvariant (codec : Codec) (s : Machine) : Prop where
  consistent : s.Consistent codec
  calm : s.Calm
  failed : s.bm.failedPacks = []
  accepted : ∀ t ∈ s.threads, ∀ c name, t.place ≠ .processResult c name false
  ordered : ∀ c, (s.bm.layers c).Ordered s.bm.deletionWatermark
  upToDate : ∀ t ∈ s.threads, ∀ a, t.place.addition = some a → UpToDate s.bm a

theorem ViewInvariant.step {s s' : Machine} {l : Label} (holds : ViewInvariant codec s) (undisturbed : Undisturbed s l)
    (taken : s.step codec l = some s') : ViewInvariant codec s' := by
  have consistent := holds.consistent.step taken
  have calm := holds.calm.step holds.consistent undisturbed.2 taken
  rcases holds.calm.step_cases undisturbed.2 taken with
    ⟨call,_,_,rfl⟩ | ⟨done,t,env,bm',place,rfl,threads,finished,aligned,possible,ran,rfl⟩ | ⟨loaded,rfl,_⟩
  · refine ⟨consistent,calm,holds.failed,fun t member => ?_,holds.ordered,fun t member => ?_⟩
    · rcases List.mem_append.mp member with old | new
      · exact holds.accepted t old
      · rw [List.mem_singleton.mp new]
        cases call <;> simp [Call.start]
    · rcases List.mem_append.mp member with old | new
      · exact holds.upToDate t old
      · rw [List.mem_singleton.mp new]
        cases call <;> simp [Call.start,Place.addition]
  · have wf := holds.consistent.wellFormed
    have member : t ∈ s.threads := by simp [threads]
    have effect := Thread.run_effect wf possible ran
    have noFailure : env.NoFailure := undisturbed.1
    obtain ⟨failed,accepted⟩ := effect.noneFailed wf possible noFailure (holds.accepted t member) holds.failed
    refine ⟨consistent,calm,failed,fun u inside => ?_,
      effect.ordered wf possible aligned noFailure holds.failed holds.ordered (holds.upToDate t member),
      fun u inside => ?_⟩
    · rcases List.mem_append.mp inside with old | new
      · obtain ⟨ok,here⟩ := finished u old
        simp [here]
      · rw [List.mem_singleton.mp new]
        exact accepted
    · rcases List.mem_append.mp inside with old | new
      · obtain ⟨ok,here⟩ := finished u old
        simp [here,Place.addition]
      · rw [List.mem_singleton.mp new]
        exact effect.upToDate wf aligned noFailure holds.failed holds.ordered (holds.upToDate t member)
  · exact undisturbed.1.elim

theorem initial_view (now : Int) (committed : List Builder) (deletionWatermark : Int) (blobs : BlobID → Option Bytes) :
    ViewInvariant codec (Machine.initial (NewWriteManager now committed deletionWatermark blobs)) := by
  refine ⟨initial_consistent _ _ _ _,initial_calm _ _ _ _,rfl,by simp [Machine.initial],fun c => ?_,
    by simp [Machine.initial]⟩
  simp only [Layers.Ordered,Layers.seen,WriteManager.layers,Machine.initial,NewWriteManager,entriesOf_nil,
    Builder.get?_empty,List.head?_nil,Option.toList_none,List.nil_append]
  cases Layers.visible deletionWatermark (mergedInfo committed c) <;> simp

/-- A whole call made when nobody is at work. -/
theorem ViewInvariant.call {s s' : Machine} {call : Call} {env : Env} (holds : ViewInvariant codec s) (idle : s.Idle)
    (noFailure : env.NoFailure)
    (called : run (Machine.step codec) s [.begin call,.run s.threads.length env] = some s') :
    ViewInvariant codec s' := by
  have undisturbed : Meets (Machine.step codec) Undisturbed s [.begin call,.run s.threads.length env] :=
    ⟨⟨trivial,idle⟩,fun _ _ => ⟨⟨noFailure,trivial⟩,fun _ _ => trivial⟩⟩
  exact invariant (fun s l t holds => holds.step) holds undisturbed called

end Invariant

end Vbe.Content
