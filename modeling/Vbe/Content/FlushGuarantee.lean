import Vbe.Content.Consistency

/-! What a `Flush` that returns without an error guarantees for contents that had
been written before: they are live in the committed index and their packs are
stored, unless a pack that failed to upload while the flush waited still holds
them. A write is safe when the entry it leaves is no earlier than any deletion of
its content that the manager holds. -/
namespace Vbe.Content
open Vbe.Index WriteManager Vbe.Library.Runs

section Writes

/-- No deletion of the content, other than the pending one that gets replaced, is
later than the stamp. -/
def StampedAfterDeletions (bm : WriteManager) (c : ID) (stamp : Int) : Prop :=
  ∀ d ∈ ((bm.layers c).publish none).entries, d.deleted = true → d.timestampSeconds ≤ stamp

/-- The entry a lookup finds is live and no deletion of its content is later. -/
def FoundSafely (bm : WriteManager) (c : ID) : Prop :=
  ∃ e ∈ bm.ContentInfo c, e.deleted = false ∧
    ∀ d ∈ (bm.layers c).entries, d.deleted = true → d.timestampSeconds ≤ e.timestampSeconds

/-- The step of a `WriteContent` that publishes its content, or finds it written
already, leaves an entry that no deletion is later than. -/
def SafeWrite (env : Env) (bm : WriteManager) (c : ID) : Place → Prop
  | .lookup _ => (∀ e ∈ bm.ContentInfo c, e.deleted = true) ∨ FoundSafely bm c
  | .publish a =>
    if lostRace bm a = true then FoundSafely bm c
    else StampedAfterDeletions bm c (contentWriteTime env a.previousWriteTime)
  | .publishWait a => StampedAfterDeletions bm c (contentWriteTime env a.previousWriteTime)
  | _ => True

instance (bm : WriteManager) (c : ID) (stamp : Int) : Decidable (StampedAfterDeletions bm c stamp) :=
  inferInstanceAs (Decidable (∀ d ∈ ((bm.layers c).publish none).entries, _))

instance (bm : WriteManager) (c : ID) : Decidable (FoundSafely bm c) :=
  inferInstanceAs (Decidable (∃ e ∈ bm.ContentInfo c, _))

instance (env : Env) (bm : WriteManager) (c : ID) : ∀ place, Decidable (SafeWrite env bm c place)
  | .lookup _ => inferInstanceAs (Decidable (_ ∨ _))
  | .publish a => inferInstanceAs (Decidable (if lostRace bm a = true then _ else _))
  | .publishWait _ => inferInstanceAs (Decidable (StampedAfterDeletions _ _ _))
  | .retryFailed => .isTrue trivial
  | .readContent => .isTrue trivial
  | .checkFlush _ => .isTrue trivial
  | .flush _ => .isTrue trivial
  | .flushWait _ => .isTrue trivial
  | .upload _ _ => .isTrue trivial
  | .processResult _ _ _ => .isTrue trivial
  | .delete => .isTrue trivial
  | .returned _ => .isTrue trivial

theorem FoundSafely.survives {bm : WriteManager} {c : ID} (found : FoundSafely bm c) : (bm.layers c).Survives := by
  obtain ⟨e,there,live,latest⟩ := found
  refine ⟨e,?_,live,latest⟩
  have shown := ContentInfo_eq bm c
  rw [there] at shown
  have member := List.mem_of_mem_head? shown.symm
  simp only [Layers.seen,Layers.visible,List.mem_append,Option.mem_toList,Option.filter_eq_some_iff] at member
  simp only [Layers.entries,List.mem_append,Option.mem_toList]
  tauto

/-- Moves that leave the pending entry where it is work on the others alone. -/
theorem Layers.Moves.publish {mayFail : Prop} {v w : Layers} (moves : Layers.Moves mayFail v w)
    (pending : w.pending = v.pending) : Layers.Moves mayFail (v.publish none) (w.publish none) := by
  have either : w.pending = v.pending ∧ Layers.Moves mayFail (v.publish none) (w.publish none) ∨
      w.pending = none ∧ v.pending ≠ none := by
    clear pending
    induction moves with
    | refl => exact Or.inl ⟨rfl,Relation.ReflTransGen.refl⟩
    | tail _ move ih =>
      rcases ih with ⟨same,moved⟩ | ⟨gone,there⟩
      · cases move with
        | finished x pending => exact Or.inr ⟨rfl,by simp [← same,pending]⟩
        | finishFailed x _ pending => exact Or.inr ⟨rfl,by simp [← same,pending]⟩
        | retried before x after failed =>
          exact Or.inl ⟨same,moved.tail (.retried (Layers.publish _ none) before x after failed)⟩
        | retryFailed before x after fails failed =>
          exact Or.inl ⟨same,moved.tail (.retryFailed (Layers.publish _ none) before x after fails failed)⟩
        | committed x built => exact Or.inl ⟨same,moved.tail (.committed (Layers.publish _ none) x built)⟩
      · refine Or.inr ⟨?_,there⟩
        cases move <;> simp [gone]
  rcases either with ⟨_,moved⟩ | ⟨gone,there⟩
  · exact moved
  · exact absurd (pending.symm.trans gone) there

theorem Layers.Survives.startWriting {v : Layers} (survives : v.Survives) : v.startWriting.Survives := by
  refine survives.of_same fun y => ?_
  simp only [Layers.entries,Layers.startWriting,Option.toList_none,List.mem_append,List.not_mem_nil]
  tauto

variable {codec : Codec} {env : Env} {bm bm1 bm' : WriteManager} {t : Thread} {place : Place} {c : ID}

theorem Layers.Survives.lockedSteps (survives : (bm.layers c).Survives) (wf : bm.WellFormed)
    (steps : LockedSteps env bm bm1) : (bm1.layers c).Survives := by
  have moves : Layers.Moves True (bm.layers c) (bm1.layers c) := steps.layers wf c fun _ _ _ _ => trivial
  exact survives.moves moves

theorem Published.survives_other {x : Info} {moved : Bool} (published : Published bm bm' x moved)
    (other : c ≠ x.contentID) (survives : (bm.layers c).Survives) : (bm'.layers c).Survives := by
  rw [published.layers c,if_neg other]
  split
  · exact survives.startWriting
  · exact survives

/-- A live entry stamped after all deletions survives, wherever its pack goes. -/
theorem Published.survives_self {x : Info} {moved : Bool} (published : Published bm bm' x moved)
    (live : x.deleted = false) (stamped : StampedAfterDeletions bm x.contentID x.timestampSeconds) :
    (bm'.layers x.contentID).Survives := by
  have entered : ((bm.layers x.contentID).publish (some x)).Survives := by
    refine ⟨x,by simp [Layers.entries,Layers.publish],live,fun d member deleted => ?_⟩
    have either : d = x ∨ d ∈ ((bm.layers x.contentID).publish none).entries := by
      simpa [Layers.entries,Layers.publish] using member
    rcases either with rfl | other
    · exact le_refl _
    · exact stamped d other deleted
  rw [published.layers,if_pos rfl]
  split
  · exact entered.startWriting
  · exact entered

/-- Retries before a publication bring no deletions. -/
theorem StampedAfterDeletions.retried {stamp : Int} (stamped : StampedAfterDeletions bm c stamp) (wf : bm.WellFormed)
    (steps : LockedSteps env bm bm1) (pending : bm1.pendingPacks = bm.pendingPacks) :
    StampedAfterDeletions bm1 c stamp := by
  have moves : Layers.Moves True (bm.layers c) (bm1.layers c) := steps.layers wf c fun _ _ _ _ => trivial
  have same : (bm1.layers c).pending = (bm.layers c).pending := by
    simp only [WriteManager.layers,pending]
  exact fun d member => stamped d ((moves.publish same).fewer d member)

theorem lostRace_iff {a : Addition} :
    lostRace bm a = true ↔ a.previousWriteTime < 0 ∧ (bm.ContentInfo a.contentID).isSome := by
  simp [lostRace,ContentInfo]

end Writes

section Invariant
variable {codec : Codec} {env : Env} {bm bm' : WriteManager} {t : Thread} {place : Place} {c : ID}

/-- A `WriteContent` that has entered its content and has not returned yet. -/
def Thread.Entered (codec : Codec) (c : ID) (t : Thread) : Prop :=
  t.call.writes codec = some c ∧
    match t.place with
    | .upload _ _ => True
    | .processResult _ _ _ => True
    | _ => False

instance (codec : Codec) (c : ID) (t : Thread) : Decidable (t.Entered codec c) :=
  match t with
  | ⟨_,.upload _ _⟩ => inferInstanceAs (Decidable (_ ∧ True))
  | ⟨_,.processResult _ _ _⟩ => inferInstanceAs (Decidable (_ ∧ True))
  | ⟨_,.retryFailed⟩ => .isFalse And.right
  | ⟨_,.lookup _⟩ => .isFalse And.right
  | ⟨_,.readContent⟩ => .isFalse And.right
  | ⟨_,.checkFlush _⟩ => .isFalse And.right
  | ⟨_,.flush _⟩ => .isFalse And.right
  | ⟨_,.flushWait _⟩ => .isFalse And.right
  | ⟨_,.publish _⟩ => .isFalse And.right
  | ⟨_,.publishWait _⟩ => .isFalse And.right
  | ⟨_,.delete⟩ => .isFalse And.right
  | ⟨_,.returned _⟩ => .isFalse And.right

/-- Only the calls that the guarantee is about: writes, deletions and flushes. -/
def Call.plain : Call → Bool
  | .RewriteContent _ _ => false
  | .UndeleteContent _ _ => false
  | _ => true

theorem Call.Adds.writes {call : Call} {a : Addition} (adds : call.Adds codec a) (plain : call.plain = true) :
    call.writes codec = some a.contentID := by
  cases adds with
  | written data idPrefix comp mp _ own _ _ => exact own
  | rewritten => contradiction
  | undeleted => contradiction

/-- What publishing does to a content that survives, or that the call writes. -/
theorem Published.survives {env : Env} {bm1 : WriteManager} {a : Addition} {x : Info} {moved : Bool}
    (published : Published bm1 bm' x moved) (wf : bm.WellFormed) (steps : LockedSteps env bm bm1)
    (pending : bm1.pendingPacks = bm.pendingPacks) (entry : EntryFor codec env bm1 a x bm') (adds : t.call.Adds codec a)
    (plain : t.call.plain = true)
    (standing : t.place = .publish a ∧ lostRace bm a = false ∨ t.place = .publishWait a)
    (safe : t.call.writes codec = some c → SafeWrite env bm c t.place)
    (before : t.call.writes codec = some c ∨ (bm.layers c).Survives) : (bm'.layers c).Survives := by
  have writes := adds.writes plain
  by_cases same : c = a.contentID
  · subst same
    have stamped : StampedAfterDeletions bm a.contentID (contentWriteTime env a.previousWriteTime) := by
      have safe := safe writes
      rcases standing with ⟨here,first⟩ | here
      · simpa [SafeWrite,here,first] using safe
      · simpa [SafeWrite,here] using safe
    rw [← entry.contentID]
    refine published.survives_self (entry.deleted.trans (adds.content_of_writes writes).2) ?_
    rw [entry.contentID,entry.time]
    exact stamped.retried wf steps pending
  · have survives : (bm.layers c).Survives := by
      rcases before with wrote | survives
      · exact absurd (Option.some.inj (wrote.symm.trans writes)) same
      · exact survives
    refine published.survives_other (entry.contentID.symm ▸ same) ?_
    exact survives.lockedSteps wf steps

/-- A content that survives goes on surviving while nobody deletes it. -/
theorem Effect.survives (effect : Effect codec env bm t bm' place) (wf : bm.WellFormed) (possible : env.Possible bm)
    (sound : t.Sound codec) (plain : t.call.plain = true) (kept : t.call ≠ .DeleteContent c)
    (safe : t.call.writes codec = some c → SafeWrite env bm c t.place) (survives : (bm.layers c).Survives) :
    (bm'.layers c).Survives := by
  have locked {bm1 : WriteManager} (steps : LockedSteps env bm bm1) : (bm1.layers c).Survives :=
    survives.lockedSteps wf steps
  have adds {a : Addition} (standing : t.place = .publish a ∧ lostRace bm a = false ∨ t.place = .publishWait a) :
      t.call.Adds codec a := by
    rcases standing with ⟨here,_⟩ | here <;> simpa only [Thread.Sound,here] using sound
  cases effect with
  | failed bm' steps => exact locked steps
  | retried bm' d steps => exact locked steps
  | flushWaits next bm' _ steps => exact locked steps
  | flushed next bm1 bm' _ _ first second => exact locked (Relation.ReflTransGen.trans first second)
  | published a bm1 bm' x standing steps pending _ entry published =>
    exact published.survives wf steps pending entry (adds standing) plain standing safe (Or.inr survives)
  | publishedFull a bm1 bm' x pp standing steps pending _ entry published =>
    exact published.survives wf steps pending entry (adds standing) plain standing safe (Or.inr survives)
  | uploaded d before pp after pp' blobs stored _ split prepared => exact uploaded_layers split prepared blobs c ▸ survives
  | indexed d before pp after built _ split indexed =>
    exact survives.processed ((processed_layers split c True).1 built indexed)
  | notStored d before pp after _ split =>
    exact survives.processed ((processed_layers split c True).2 fun _ => trivial)
  | deleted d bm' ok call _ done =>
    have other : c ≠ d := fun same => kept (same ▸ call)
    rcases DeleteContent_cases wf (FreshNames.of_possible possible) done with same | ⟨x,republished⟩
    · exact same ▸ survives
    · rw [republished.layers c,if_neg other]
      exact survives
  | _ => exact survives

/-- A write that has entered its content, or returns success, leaves it surviving. -/
theorem Effect.survives_written (effect : Effect codec env bm t bm' place) (wf : bm.WellFormed)
    (possible : env.Possible bm) (sound : t.Sound codec) (writes : t.call.writes codec = some c)
    (safe : SafeWrite env bm c t.place) (before : t.Entered codec c → (bm.layers c).Survives)
    (done : place = .returned true ∨ ({t with place := place} : Thread).Entered codec c) :
    (bm'.layers c).Survives := by
  obtain ⟨data,idPrefix,comp,mp,call,_⟩ := Call.writes_cases writes
  have plain : t.call.plain = true := by rw [call]; rfl
  have kept : t.call ≠ .DeleteContent c := by simp [call]
  have entered (standing : t.Entered codec c) : (bm'.layers c).Survives :=
    effect.survives wf possible sound plain kept (fun _ => safe) (before standing)
  have adds {a : Addition} (standing : t.place = .publish a ∧ lostRace bm a = false ∨ t.place = .publishWait a) :
      t.call.Adds codec a := by
    rcases standing with ⟨here,_⟩ | here <;> simpa only [Thread.Sound,here] using sound
  cases effect with
  | present d bi here found live =>
    simp only [Thread.Sound,here] at sound
    cases Option.some.inj (sound.symm.trans writes)
    simp only [SafeWrite,here] at safe
    rcases safe with gone | found'
    · simp [gone bi found] at live
    · exact found'.survives
  | lost a bi here early found =>
    simp only [Thread.Sound,here] at sound
    have own := (sound.content_of_writes writes).1
    subst own
    rw [here,SafeWrite,if_pos (lostRace_iff.mpr ⟨early,by simp [found]⟩)] at safe
    exact safe.survives
  | published a bm1 bm' x standing steps pending _ entry published =>
    exact published.survives wf steps pending entry (adds standing) plain standing (fun _ => safe) (Or.inl writes)
  | publishedFull a bm1 bm' x pp standing steps pending _ entry published =>
    exact published.survives wf steps pending entry (adds standing) plain standing (fun _ => safe) (Or.inl writes)
  | uploaded d before pp after pp' blobs stored here => exact entered ⟨writes,by simp [here]⟩
  | indexed d before pp after built here => exact entered ⟨writes,by simp [here]⟩
  | notDeleted d mp bi call' => simp [call] at call'
  | deleted d bm' ok call' => simp [call] at call'
  | flushed next bm1 bm' standing =>
    cases next with
    | none => rcases standing with ⟨here,_⟩ | ⟨here,_⟩ <;> simp [Thread.Sound,here,call] at sound
    | some a => simp [Place.afterFlush,Thread.Entered] at done
  | _ => simp [Thread.Entered] at done

/-- The labels of runs of writes, deletions and flushes. -/
def Label.plain : Label → Bool
  | .begin call => call.plain
  | .run _ _ => true
  | .refresh _ => false

/-- Writes of the content are safe, it is not deleted between a write that enters it
and the return of that write, and a `Flush` goes on from its wait only when no failed
pack holds it. -/
def FlushCondition (codec : Codec) (c : ID) (s : Machine) : Label → Prop
  | .run i env => ∀ t ∈ s.threads[i]?,
      (t.call.writes codec = some c → SafeWrite env s.bm c t.place) ∧
      (t.call = .DeleteContent c → ∀ u ∈ s.threads, ¬u.Entered codec c) ∧
      (t.place = .flushWait none → ∀ pp ∈ s.bm.failedPacks, pp.currentPackItems.get? c = none)
  | _ => True

instance (codec : Codec) (c : ID) (s : Machine) : ∀ l, Decidable (FlushCondition codec c s l)
  | .begin _ => .isTrue trivial
  | .refresh _ => .isTrue trivial
  | .run i _ => inferInstanceAs (Decidable (∀ t ∈ s.threads[i]?, _))

structure FlushInvariant (codec : Codec) (c : ID) (s : Machine) : Prop where
  consistent : s.Consistent codec
  stored : s.Stored
  plain : ∀ t ∈ s.threads, t.call.plain = true
  survives : (c ∈ s.acknowledged ∨ ∃ t ∈ s.threads, t.Entered codec c) → (s.bm.layers c).Survives

theorem mem_acknowledge {acknowledged : List ID} (member : c ∈ acknowledge codec t place acknowledged) :
    (c ∈ acknowledged ∧ t.call ≠ .DeleteContent c) ∨ (place = .returned true ∧ t.call.writes codec = some c) := by
  by_cases deletes : ∃ d, t.call = .DeleteContent d
  · obtain ⟨d,call⟩ := deletes
    simp only [acknowledge,call,List.mem_filter,decide_eq_true_eq] at member
    exact Or.inl ⟨member.1,by rw [call]; simp [Ne.symm member.2]⟩
  · have kept : t.call ≠ .DeleteContent c := fun same => deletes ⟨c,same⟩
    unfold acknowledge at member
    split at member
    next d call => exact absurd ⟨d,call⟩ deletes
    next =>
      rcases List.mem_append.mp member with written | old
      · exact Or.inr ⟨rfl,by simpa using written⟩
      · exact Or.inl ⟨old,kept⟩
    next => exact Or.inl ⟨member,kept⟩

theorem FlushInvariant.step {s s' : Machine} {l : Label} (holds : FlushInvariant codec c s)
    (plain : l.plain = true) (condition : FlushCondition codec c s l) (taken : s.step codec l = some s') :
    FlushInvariant codec c s' := by
  have alone : ∀ loaded, l ≠ .refresh loaded := by
    rintro loaded rfl
    contradiction
  refine ⟨holds.consistent.step taken,holds.stored.step holds.consistent alone taken,?_,?_⟩
  · rcases Machine.step_cases taken with ⟨call,rfl,rfl⟩ | ⟨i,env,t,bm',place,_,there,_,_,rfl⟩ | ⟨loaded,here,_⟩
    · intro t member
      rcases List.mem_append.mp member with old | new
      · exact holds.plain t old
      · rw [List.mem_singleton.mp new]
        cases call <;> exact plain
    · intro u member
      rcases mem_set_thread member with rfl | old
      · exact holds.plain t (List.mem_of_getElem? there)
      · exact holds.plain u old
    · exact absurd here (alone loaded)
  · rcases Machine.step_cases taken with ⟨call,_,rfl⟩ | ⟨i,env,t,bm',place,rfl,there,possible,ran,rfl⟩ | ⟨loaded,here,_⟩
    · refine fun entered => holds.survives (entered.imp id fun ⟨t,member,inside⟩ => ?_)
      rcases List.mem_append.mp member with old | new
      · exact ⟨t,old,inside⟩
      · rw [List.mem_singleton.mp new] at inside
        cases call <;> exact absurd inside.2 id
    · have wf := holds.consistent.wellFormed
      have effect := Thread.run_effect wf possible ran
      have member := List.mem_of_getElem? there
      have sound := holds.consistent.sound t member
      obtain ⟨safe,undisturbed,_⟩ := condition t there
      have keeps := effect.survives wf possible sound (holds.plain t member) (c := c)
      have writes (writes : t.call.writes codec = some c) := effect.survives_written wf possible sound writes
        (safe writes) fun standing => holds.survives (Or.inr ⟨t,member,standing⟩)
      rintro (written | ⟨u,inside,entered⟩)
      · rcases mem_acknowledge written with ⟨old,kept⟩ | ⟨done,wrote⟩
        · exact keeps kept safe (holds.survives (Or.inl old))
        · exact writes wrote (Or.inl done)
      · rcases mem_set_thread inside with rfl | old
        · exact writes entered.1 (Or.inr entered)
        · exact keeps (fun call => undisturbed call u old entered) safe (holds.survives (Or.inr ⟨u,old,entered⟩))
    · exact absurd here (alone loaded)

/-- A flush that has gone through leaves a surviving content live in the committed
index, with its pack stored. -/
theorem Flushed.commits {bm1 : WriteManager} (flushed : Flushed bm1 bm') (steps : LockedSteps env bm1 bm')
    (wf : bm1.WellFormed) (backed : bm1.Backed) (enabled : bm1.disableIndexFlushCount = 0)
    (idle : bm1.writingPacks = []) (failed : ∀ pp ∈ bm1.failedPacks, pp.currentPackItems.get? c = none)
    (survives : (bm1.layers c).Survives) :
    ∃ e, bm'.getContent c = some e ∧ e.deleted = false ∧ bm'.blobs e.packBlobID ≠ none := by
  have later : (bm'.layers c).Survives := survives.lockedSteps wf steps
  have writing : bm'.writingPacks = [] := (steps.surroundings wf).writing.trans idle
  obtain ⟨e,committed,live⟩ := later.committed_live (by simp [WriteManager.layers,flushed.pending])
    (by simp [WriteManager.layers,writing])
    (by simpa [WriteManager.layers,flushed.failed] using entriesOf_eq_nil failed)
    (flushed.built (le_of_eq enabled) c)
  refine ⟨e,?_,live,?_⟩
  · rw [getContent_eq,committed]
    simp [Layers.visible,Option.filter,live]
  · obtain ⟨b,member,found⟩ := mergedInfo_mem committed
    exact (steps.backed wf backed).committed b member c e found live

/-- The step with which a `Flush` returns success. -/
theorem FlushInvariant.returns {s s' : Machine} {i : Nat} {env : Env} (holds : FlushInvariant codec c s)
    (condition : FlushCondition codec c s (.run i env)) (acknowledged : c ∈ s.acknowledged)
    (taken : s.step codec (.run i env) = some s') (returned : s'.threads[i]? = some ⟨.Flush,.returned true⟩) :
    ∃ e, s'.bm.getContent c = some e ∧ e.deleted = false ∧ s'.bm.blobs e.packBlobID ≠ none := by
  have wf := holds.consistent.wellFormed
  rcases Machine.step_cases taken with ⟨_,same,_⟩ | ⟨j,env',t,bm',place,same,there,possible,ran,rfl⟩ | ⟨_,same,_⟩
  · cases same
  · cases same
    have sound := holds.consistent.sound t (List.mem_of_getElem? there)
    have inside : i < s.threads.length := (List.getElem?_eq_some_iff.mp there).1
    simp only [List.getElem?_set_self inside,Option.some.injEq,Thread.mk.injEq] at returned
    obtain ⟨call,rfl⟩ := returned
    have survives := holds.survives (Or.inl acknowledged)
    have effect := Thread.run_effect wf possible ran
    obtain ⟨_,_,settled⟩ := condition t there
    generalize here : Place.returned true = place at effect
    cases effect with
    | flushed next bm1 bm' standing idle first second flushed =>
      cases next with
      | some a => contradiction
      | none =>
        have count := (first.surroundings wf).disableIndexFlushCount.trans holds.consistent.enabled
        have waited := (first.surroundings wf).writing.trans idle
        refine flushed.commits second (first.wellFormed wf) (first.backed wf holds.stored.backed) count waited ?_ ?_
        · rcases standing with ⟨_,empty⟩ | ⟨standing,rfl⟩
          · simp [empty]
          · exact settled standing
        · exact survives.lockedSteps wf first
    | present d bi standing => simp [Thread.Sound,standing,call,Call.writes] at sound
    | notDeleted d mp bi other => simp [call] at other
    | lost a bi standing =>
      simp only [Thread.Sound,standing,call] at sound
      cases sound
    | published a bm1 bm' x standing =>
      rcases standing with ⟨standing,_⟩ | standing <;>
      · simp only [Thread.Sound,standing,call] at sound
        cases sound
    | indexed d before pp after built standing =>
      simp only [Thread.Sound,standing,call] at sound
      obtain ⟨_,adds,_⟩ := sound
      cases adds
    | deleted d bm' ok other => simp [call] at other
    | _ => simp at here
  · cases same

end Invariant

section Guarantee

/-- A content is acknowledged after the labels `before`, then a `Flush` starts, and
the content is not deleted along `after`: when the flush then returns success, the
content is live in the committed index and its pack is stored. -/
def FlushGuarantee (codec : Codec) (bm : WriteManager) (before after : List Label) (i : Nat) (env : Env) (c : ID) :
    Prop :=
  ∀ started s s', run (Machine.step codec) (Machine.initial bm) before = some started → c ∈ started.acknowledged →
    started.threads.length = i → run (Machine.step codec) started (.begin .Flush :: after) = some s →
    c ∈ s.acknowledged → s.step codec (.run i env) = some s' → s'.threads[i]? = some ⟨.Flush,.returned true⟩ →
    ∃ e, s'.bm.getContent c = some e ∧ e.deleted = false ∧ s'.bm.blobs e.packBlobID ≠ none

/-- A content written to a roomy pack. -/
def writeFirst : List Label :=
  [.begin (.WriteContent [1] [] NoCompression roomy),.run 0 (clock 10 []),.run 0 (clock 11 []),.run 0 (clock 12 []),
    .run 0 (clock 13 [])]

/-- A second content fills the pack. -/
def fillPack : List Label :=
  writeFirst ++ [.begin (.WriteContent [2] [] NoCompression tight),.run 1 (clock 14 [[112,13]]),
    .run 1 (clock 15 [[112,13]]),.run 1 (clock 16 [[112,13]]),.run 1 (clock 17 [[112,13]])]

/-- The pack is refused while a flush waits for it. -/
def refuseDuringFlush : List Label := [.run 2 (clock 18 []),.run 1 (refusing 19 []),.run 1 (clock 20 [])]

end Guarantee

end Vbe.Content
