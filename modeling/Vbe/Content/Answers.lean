import Vbe.Content.View

/-! What `Flush` and `DeleteContent` do to the answer for a content, in every state
that calls made one after another reach without storage failures: exactly when a
flush shows again what was seen before it, and exactly when a deletion takes effect. -/
namespace Vbe.Content
open Vbe.Index WriteManager Vbe.Library.Runs

section Calls
variable {codec : Codec} {env : Env} {s s' : Machine}

/-- A call that returns with its first step. -/
theorem Machine.call_of_idle {call : Call}
    (called : run (Machine.step codec) s [.begin call,.run s.threads.length env] = some s') :
    ∃ bm' place, env.Possible s.bm ∧ call.start.run codec env s.bm = some (bm',place) ∧ s'.bm = bm' ∧
      s'.threads = s.threads ++ [⟨call.start.call,place⟩] := by
  rw [run_cons (t := {s with threads := s.threads ++ [call.start]}) rfl] at called
  obtain ⟨s'',taken,same⟩ : ∃ s'', Machine.step codec {s with threads := s.threads ++ [call.start]}
      (.run s.threads.length env) = some s'' ∧ s'' = s' := by
    simp only [run] at called
    split at called
    · contradiction
    next s'' taken => exact ⟨s'',taken,Option.some.inj called⟩
  subst same
  rcases Machine.step_cases taken with ⟨_,other,_⟩ | ⟨i,env',t,bm',place,label,there,possible,ran,rfl⟩ | ⟨_,other,_⟩
  · cases other
  · cases label
    have first : call.start = t := by simpa using there
    subst first
    exact ⟨bm',place,possible,ran,rfl,by simp⟩
  · cases other

/-- A flush that returns success at once: nothing is left outside the committed index. -/
theorem Machine.flush_of_idle (consistent : s.Consistent codec)
    (called : run (Machine.step codec) s [.begin .Flush,.run s.threads.length env] = some s')
    (returned : s'.threads.getLast? = some ⟨.Flush,.returned true⟩) :
    s.bm.writingPacks = [] ∧ ∃ bm1, LockedSteps env s.bm bm1 ∧ bm1.failedPacks = [] ∧ LockedSteps env bm1 s'.bm ∧
      Flushed bm1 s'.bm := by
  obtain ⟨bm',place,possible,ran,same,threads⟩ := Machine.call_of_idle called
  have done : place = .returned true := by simpa [threads,Call.start] using returned
  have shape : flushBegin env s.bm none = (bm',place) := Option.some.inj ran
  obtain ⟨_,outcome⟩ := flushBegin_spec env none consistent.wellFormed possible.2.2
  rw [shape,done] at outcome
  rcases outcome with failed | ⟨waits,_⟩ | ⟨_,idle,bm1,first,failed,second,flushed⟩
  · simp at failed
  · contradiction
  · exact ⟨idle,bm1,first,failed,same ▸ second,same ▸ flushed⟩

theorem Machine.delete_of_idle {c : ID} {ok : Bool}
    (called : run (Machine.step codec) s [.begin (.DeleteContent c),.run s.threads.length env] = some s')
    (returned : s'.threads.getLast? = some ⟨.DeleteContent c,.returned ok⟩) :
    env.Possible s.bm ∧ s.bm.DeleteContent env c = (s'.bm,ok) := by
  obtain ⟨bm',place,possible,ran,same,threads⟩ := Machine.call_of_idle called
  have done : place = .returned ok := by simpa [threads,Call.start] using returned
  have shape : ((s.bm.DeleteContent env c).1,Place.returned (s.bm.DeleteContent env c).2) = (bm',place) :=
    Option.some.inj ran
  simp only [Prod.mk.injEq,done,Place.returned.injEq] at shape
  exact ⟨possible,Prod.ext (shape.1.trans same.symm) shape.2⟩

end Calls

section Flushes
variable {codec : Codec} {env : Env} {s s' : Machine} {c : ID}

/-- After a flush a lookup answers with what resolving all entries gives. -/
theorem ViewInvariant.flush_answer (holds : ViewInvariant codec s) (noFailure : env.NoFailure)
    (called : run (Machine.step codec) s [.begin .Flush,.run s.threads.length env] = some s')
    (returned : s'.threads.getLast? = some ⟨.Flush,.returned true⟩) :
    s'.bm.ContentInfo c = Layers.visible s.bm.deletionWatermark (s.bm.layers c).resolved := by
  have wf := holds.consistent.wellFormed
  obtain ⟨idle,bm1,first,failed,second,flushed⟩ := Machine.flush_of_idle holds.consistent called returned
  have steps : LockedSteps env s.bm s'.bm := Relation.ReflTransGen.trans first second
  have kept := steps.surroundings wf
  have moves : Layers.Moves False (s.bm.layers c) (s'.bm.layers c) :=
    steps.layers wf c fun pp _ _ refused => by simp [noFailure.1] at refused
  have same := moves.resolved (by simp [WriteManager.layers,idle]) (by simp [WriteManager.layers,holds.failed])
    (holds.ordered c)
  have writing : (s'.bm.layers c).writing = [] := by simp [WriteManager.layers,kept.writing,idle]
  have pending : (s'.bm.layers c).pending = none := by simp [WriteManager.layers,flushed.pending]
  have built : (s'.bm.layers c).built = none := by
    refine flushed.built (le_of_eq ?_) c
    exact (first.surroundings wf).disableIndexFlushCount.trans holds.consistent.enabled
  rw [ContentInfo_eq,Layers.answer_uncommitted writing,← same,kept.deletionWatermark]
  simp [Layers.resolved,pending,built]

/-- The newest uncommitted entry of a content outlives a flush: a deletion is later
than the watermark, and no committed deletion that the watermark hides is later than
a live entry. -/
def KeptByFlush (bm : WriteManager) (c : ID) : Prop :=
  ∀ found ∈ bm.getOverlayContentInfo c,
    if found.2.deleted = true then bm.deletionWatermark < found.2.timestampSeconds
    else ∀ h ∈ mergedInfo bm.committed c, h.deleted = true → h.timestampSeconds ≤ bm.deletionWatermark →
      h.timestampSeconds ≤ found.2.timestampSeconds

theorem getOverlayContentInfo_eq {bm : WriteManager} (writing : bm.writingPacks = []) :
    (bm.getOverlayContentInfo c).map Prod.snd = (bm.layers c).pending.or (bm.layers c).built := by
  have pending := findInPacks_eq bm.pendingPacks c
  unfold getOverlayContentInfo
  cases first : findInPacks bm.pendingPacks c with
  | some found =>
    rw [first] at pending
    simp [WriteManager.layers,← pending]
  | none =>
    rw [first] at pending
    cases built : bm.packIndexBuilder.get? c <;> simp [writing,findInPacks,WriteManager.layers,← pending,built]

theorem keptByFlush_iff {bm : WriteManager} (writing : bm.writingPacks = []) :
    KeptByFlush bm c ↔ (bm.layers c).Kept bm.deletionWatermark := by
  unfold KeptByFlush Layers.Kept
  rw [← getOverlayContentInfo_eq writing]
  cases bm.getOverlayContentInfo c with
  | none => simp
  | some found =>
    simp only [Option.mem_def,Option.some.injEq,forall_eq',Option.map_some]
    exact Iff.rfl

/-- A first write of a content. -/
def writeOnce : List Label :=
  [.begin (.WriteContent [1] [] NoCompression roomy),.run 0 (clock 10 []),.run 0 (clock 11 []),.run 0 (clock 12 []),
    .run 0 (clock 13 [])]

theorem writeOnce_quiet : ∀ l ∈ writeOnce, l.Quiet := by simp [writeOnce,Label.Quiet,clock_noFailure]

/-- A committed deletion from a clock that is ahead, hidden by the watermark. -/
def hiddenDeletion : Builder := Builder.empty.set ⟨[112,0],100,1,1,0,0,⟨0,[1]⟩,true,2,0⟩

end Flushes

section Deletions
variable {codec : Codec} {env : Env} {s s' : Machine} {c : ID}

/-- The content is not found, or found deleted. -/
def NotLive (bm : WriteManager) (c : ID) : Prop := ∀ i ∈ bm.ContentInfo c, i.deleted = true

/-- The content is live in a pending pack, and without the pending packs it would be
live as well. -/
def LiveTwice (bm : WriteManager) (c : ID) : Prop :=
  (∃ found ∈ findInPacks bm.pendingPacks c, found.2.deleted = false) ∧
    ∃ i ∈ ({bm with pendingPacks := []} : WriteManager).ContentInfo c, i.deleted = false

/-- A flush brings back no content that is not live. -/
theorem Layers.resolved_not_live {v : Layers} {deletionWatermark : Int} (ordered : v.Ordered deletionWatermark)
    (writing : v.writing = []) (notLive : ∀ i ∈ v.answer deletionWatermark, i.deleted = true) :
    ∀ i ∈ visible deletionWatermark v.resolved, i.deleted = true := by
  rw [answer_uncommitted writing] at notLive
  intro i shown
  cases first : v.pending.or v.built with
  | none =>
    simp only [Layers.resolved,first] at shown
    exact notLive i (by simpa [first] using shown)
  | some x =>
    simp only [Layers.resolved,first] at shown
    obtain ⟨same,_⟩ := mem_visible shown
    rcases winner_cases v.committed x with new | old
    · rw [new] at same
      exact notLive i (by simpa [first] using same)
    · rw [← old] at shown
      have below := below_first ordered first shown
      have later := le_of_not_beaten (winner_not_beaten v.committed x x (Or.inl rfl))
      rw [Option.some.inj same] at later
      omega

theorem ContentInfo_without_pending (bm : WriteManager) (c : ID) :
    ({bm with pendingPacks := []} : WriteManager).ContentInfo c =
      ((bm.layers c).publish none).answer bm.deletionWatermark := ContentInfo_eq _ c

theorem liveTwice_iff {bm : WriteManager} : LiveTwice bm c ↔
    (∃ x ∈ (bm.layers c).pending, x.deleted = false) ∧
      ∃ i ∈ ((bm.layers c).publish none).answer bm.deletionWatermark, i.deleted = false := by
  unfold LiveTwice
  rw [ContentInfo_without_pending]
  have pending : (findInPacks bm.pendingPacks c).map Prod.snd = (bm.layers c).pending := findInPacks_eq _ c
  rw [← pending]
  cases findInPacks bm.pendingPacks c <;> simp

/-- Right after a deletion the content is not live, unless it was live twice. -/
theorem DeleteContent_notLive_iff {bm bm' : WriteManager} (wf : bm.WellFormed) (fresh : FreshNames env bm)
    (writing : bm.writingPacks = []) (done : bm.DeleteContent env c = (bm',true)) : NotLive bm' c ↔ ¬LiveTwice bm c := by
  have unwritten : (bm.layers c).writing = [] := by simp [WriteManager.layers,writing]
  rw [liveTwice_iff]
  unfold NotLive
  rw [ContentInfo_eq]
  rcases DeleteContent_spec wf fresh c with ⟨bm1,x,shape,pending,live,republished⟩ |
    ⟨gone,⟨shape,_⟩ | ⟨y,target,⟨shape,old⟩ | ⟨bm1,shape,_,republished⟩⟩⟩
  · cases shape.symm.trans done
    rw [republished.layers c,if_pos rfl,republished.same.deletionWatermark,pending]
    simp [live]
  · cases shape.symm.trans done
  · cases shape.symm.trans done
    have notPending : ¬∃ x ∈ (bm.layers c).pending, x.deleted = false := by
      rintro ⟨x,there,live⟩
      simp [gone x there] at live
    simp only [notPending,false_and,not_false_eq_true,iff_true]
    rw [Layers.deleteTarget_eq unwritten,Layers.answer_uncommitted (v := (bm.layers c).publish none) unwritten] at target
    rw [Layers.answer_uncommitted unwritten]
    intro i there
    cases pending : (bm.layers c).pending with
    | some x =>
      have same : x = i := by simpa [pending] using there
      exact same ▸ gone x pending
    | none =>
      have same : some y = some i := target.symm.trans (by simpa [Layers.publish,pending] using there)
      exact Option.some.inj same ▸ old
  · cases shape.symm.trans done
    have notPending : ¬∃ x ∈ (bm.layers c).pending, x.deleted = false := by
      rintro ⟨x,there,live⟩
      simp [gone x there] at live
    simp only [notPending,false_and,not_false_eq_true,iff_true]
    rw [republished.layers c,if_pos rfl]
    intro i there
    have same : deletedInfo y (contentWriteTime env y.timestampSeconds) = i := by
      simpa [Layers.answer,Layers.seen,Layers.publish] using there
    exact same ▸ rfl

/-- The pack of `committedContent`. -/
def storedPack (name : BlobID) : Option Bytes := if name = [112,0] then some [1] else none

def rewriteOnce : List Label :=
  [.begin (.RewriteContent ⟨0,[1]⟩ roomy),.run 0 (clock 10 []),.run 0 (clock 11 []),.run 0 (clock 12 [])]

end Deletions

end Vbe.Content
