import Vbe.Content.Sections

/-! All that one step of a thread can do, said once. The invariants of runs are
derived from these cases and never unfold the sections again. -/
namespace Vbe.Content
open Vbe.Index WriteManager

/-- The addition that a thread is about to make. -/
def Place.addition : Place → Option Addition
  | .checkFlush a => some a
  | .flush next => next
  | .flushWait next => next
  | .publish a => some a
  | .publishWait a => some a
  | _ => none

/-- The places whose step can end with an error of its own. -/
def Place.fallible : Place → Bool
  | .upload _ _ => false
  | .processResult _ _ _ => false
  | .delete => false
  | .returned _ => false
  | _ => true

/-- The places of a flush. -/
def Place.flushes : Place → Bool
  | .flush _ => true
  | .flushWait _ => true
  | _ => false

/-- The time of the entry that a lookup answers with. -/
def lastWriteTime (bm : WriteManager) (c : ID) : Int :=
  match bm.ContentInfo c with
  | none => -1
  | some bi => bi.timestampSeconds

/-- What an addition takes over from the lookup that it follows. -/
inductive Reads (codec : Codec) (bm : WriteManager) (t : Thread) (a : Addition) : Prop
  | written (data : Bytes) (idPrefix : IDPrefix) (comp : UInt32) (mp : MutableParameters) :
      t.call = .WriteContent data idPrefix comp mp → t.place = .lookup a.contentID →
      (∀ bi, bm.ContentInfo a.contentID = some bi → bi.deleted = true) → a.data = data → a.isDeleted = false →
      a.mp = mp → a.previousWriteTime = lastWriteTime bm a.contentID → Reads codec bm t a
  | rewritten (mp : MutableParameters) (bi : Info) : t.call = .RewriteContent a.contentID mp → t.place = .readContent →
      bm.getContentDataAndInfo codec a.contentID = some (a.data,bi) → a.isDeleted = bi.deleted →
      a.mp = mp → a.previousWriteTime = bi.timestampSeconds → Reads codec bm t a
  | undeleted (mp : MutableParameters) (bi : Info) : t.call = .UndeleteContent a.contentID mp →
      t.place = .readContent → bm.getContentDataAndInfo codec a.contentID = some (a.data,bi) → bi.deleted = true →
      a.isDeleted = false → a.mp = mp → a.previousWriteTime = bi.timestampSeconds → Reads codec bm t a

/-- The entry that an addition makes. -/
structure EntryFor (codec : Codec) (env : Env) (bm : WriteManager) (a : Addition) (x : Info) (bm' : WriteManager) :
    Prop where
  contentID : x.contentID = a.contentID
  deleted : x.deleted = a.isDeleted
  time : x.timestampSeconds = contentWriteTime env a.previousWriteTime
  inserted : ∃ actualComp packed, Inserted env bm a actualComp packed x bm' ∧
    codec.maybeCompressAndEncryptDataForPacking a.data a.contentID a.comp a.mp env.nonce = some (actualComp,packed)

inductive Effect (codec : Codec) (env : Env) (bm : WriteManager) (t : Thread) : WriteManager → Place → Prop
  /-- An error, after some retries or uploads of a flush. -/
  | failed (bm' : WriteManager) : LockedSteps env bm bm' → t.place.fallible = true →
      (bm.failedPacks = [] → bm' = bm ∨ t.place.flushes = true ∧ bm.writingPacks = []) →
      Effect codec env bm t bm' (.returned false)
  | retried (bm' : WriteManager) (c : ID) : LockedSteps env bm bm' → bm'.failedPacks = [] → t.place = .retryFailed →
      t.call.writes codec = some c → Effect codec env bm t bm' (.lookup c)
  | present (c : ID) (bi : Info) : t.place = .lookup c → bm.ContentInfo c = some bi → bi.deleted = false →
      Effect codec env bm t bm (.returned true)
  | notDeleted (c : ID) (mp : MutableParameters) (bi : Info) : t.call = .UndeleteContent c mp → t.place = .readContent →
      bm.ContentInfo c = some bi → bi.deleted = false → Effect codec env bm t bm (.returned true)
  | read (a : Addition) : Reads codec bm t a → Effect codec env bm t bm (.checkFlush a)
  | due (a : Addition) : t.place = .checkFlush a → Effect codec env bm t bm (.flush (some a))
  | notDue (a : Addition) : t.place = .checkFlush a → Effect codec env bm t bm (.publish a)
  | flushWaits (next : Option Addition) (bm' : WriteManager) : t.place = .flush next → LockedSteps env bm bm' →
      bm.writingPacks ≠ [] → (bm.failedPacks = [] → bm' = {bm with flushing := true}) →
      Effect codec env bm t bm' (.flushWait next)
  | flushed (next : Option Addition) (bm1 bm' : WriteManager) :
      (t.place = .flush next ∧ bm1.failedPacks = [] ∨ t.place = .flushWait next ∧ bm1 = bm) → bm.writingPacks = [] →
      LockedSteps env bm bm1 → LockedSteps env bm1 bm' → Flushed bm1 bm' →
      Effect codec env bm t bm' (Place.afterFlush next)
  | lost (a : Addition) (bi : Info) : t.place = .publish a → a.previousWriteTime < 0 →
      bm.ContentInfo a.contentID = some bi → Effect codec env bm t bm (.returned true)
  | waits (a : Addition) : t.place = .publish a → Effect codec env bm t bm (.publishWait a)
  | published (a : Addition) (bm1 bm' : WriteManager) (x : Info) :
      (t.place = .publish a ∧ lostRace bm a = false ∨ t.place = .publishWait a) → LockedSteps env bm bm1 →
      bm1.pendingPacks = bm.pendingPacks → bm1.failedPacks = [] → EntryFor codec env bm1 a x bm' →
      Published bm1 bm' x false → bm'.writingPacks = bm1.writingPacks → (bm.failedPacks = [] → bm1 = bm) →
      Effect codec env bm t bm' (.returned true)
  | publishedFull (a : Addition) (bm1 bm' : WriteManager) (x : Info) (pp : PendingPackInfo) :
      (t.place = .publish a ∧ lostRace bm a = false ∨ t.place = .publishWait a) → LockedSteps env bm bm1 →
      bm1.pendingPacks = bm.pendingPacks → bm1.failedPacks = [] → EntryFor codec env bm1 a x bm' →
      Published bm1 bm' x true → bm'.writingPacks = bm1.writingPacks ++ [pp] →
      pp.currentPackItems.get? x.contentID = some x → x.packBlobID = pp.packBlobID → (bm.failedPacks = [] → bm1 = bm) →
      Effect codec env bm t bm' (.upload a.contentID pp.packBlobID)
  | uploaded (c : ID) (before : List PendingPackInfo) (pp : PendingPackInfo) (after : List PendingPackInfo)
      (pp' : PendingPackInfo) (blobs : BlobID → Option Bytes) (stored : Bool) : t.place = .upload c pp.packBlobID →
      bm.writingPacks = before ++ pp :: after → PreparedFrom pp pp' →
      (stored = true ∧ StoredAs bm.blobs pp' blobs ∨
        stored = false ∧ (env.upload pp.packBlobID).stored = false ∧ blobs = bm.blobs) →
      Effect codec env bm t (withUploaded bm (before ++ pp' :: after) blobs) (.processResult c pp.packBlobID stored)
  | indexed (c : ID) (before : List PendingPackInfo) (pp : PendingPackInfo) (after : List PendingPackInfo)
      (built : Builder) : t.place = .processResult c pp.packBlobID true → bm.writingPacks = before ++ pp :: after →
      Indexed bm.packIndexBuilder pp built →
      Effect codec env bm t (withProcessed bm (before ++ after) bm.failedPacks built) (.returned true)
  | notStored (c : ID) (before : List PendingPackInfo) (pp : PendingPackInfo) (after : List PendingPackInfo) :
      t.place = .processResult c pp.packBlobID false → bm.writingPacks = before ++ pp :: after →
      Effect codec env bm t (withProcessed bm (before ++ after) (bm.failedPacks ++ [pp]) bm.packIndexBuilder)
        (.returned false)
  | deleted (c : ID) (bm' : WriteManager) (ok : Bool) : t.call = .DeleteContent c → t.place = .delete →
      bm.DeleteContent env c = (bm',ok) → Effect codec env bm t bm' (.returned ok)

section Inversion
variable {codec : Codec} {env : Env} {bm bm' : WriteManager} {t : Thread} {place : Place}

theorem ContentInfo_of_getContentDataAndInfo {c : ID} {data : Bytes} {bi : Info}
    (found : bm.getContentDataAndInfo codec c = some (data,bi)) : bm.ContentInfo c = some bi := by
  unfold getContentDataAndInfo at found
  split at found
  · contradiction
  next pp i there =>
    split at found
    · contradiction
    · obtain ⟨_,_,same⟩ := Option.map_eq_some_iff.mp found
      simp only [Prod.mk.injEq] at same
      simp [ContentInfo,there,same.2]

theorem publishLocked_effect (wf : bm.WellFormed) (possible : env.Possible bm) {a : Addition}
    (standing : t.place = .publish a ∧ lostRace bm a = false ∨ t.place = .publishWait a) {actualComp : UInt32}
    {packed : Bytes} (encrypted : codec.maybeCompressAndEncryptDataForPacking a.data a.contentID a.comp a.mp env.nonce =
      some (actualComp,packed)) : Effect codec env bm t (publishLocked env bm a actualComp packed).1
      (publishLocked env bm a actualComp packed).2 := by
  have fallible : t.place.fallible = true := by
    rcases standing with ⟨here,_⟩ | here <;> simp [here,Place.fallible]
  rcases publishLocked_spec wf (FreshNames.of_possible possible) a actualComp packed with
    ⟨bm1,steps,same,done⟩ |
    ⟨bm1,bm2,x,steps,same,pending,failed,own,deleted,time,inserted,
      ⟨published,writing,done⟩ | ⟨pp,published,writing,entry,pack,done⟩⟩
  · rw [done]
    exact .failed bm1 steps fallible fun failed => Or.inl (same failed)
  · rw [done]
    exact .published a bm1 bm2 x standing steps pending failed ⟨own,deleted,time,_,_,inserted,encrypted⟩ published
      writing same
  · rw [done]
    exact .publishedFull a bm1 bm2 x pp standing steps pending failed ⟨own,deleted,time,_,_,inserted,encrypted⟩
      published writing entry pack same

theorem flushFinish_effect (wf : bm.WellFormed) (possible : env.Possible bm) {next : Option Addition}
    (here : t.place = .flushWait next) (idle : bm.writingPacks = []) :
    Effect codec env bm t (flushFinish env bm next).1 (flushFinish env bm next).2 := by
  obtain ⟨steps,_,outcome⟩ := flushFinish_spec env next wf possible.2.2
  rcases outcome with error | ⟨place,flushed⟩
  · rw [error]
    exact .failed _ steps (by simp [here,Place.fallible]) fun _ => Or.inr ⟨by simp [here,Place.flushes],idle⟩
  · rw [place]
    exact .flushed next bm _ (Or.inr ⟨here,rfl⟩) idle Relation.ReflTransGen.refl steps flushed

theorem flushBegin_effect (wf : bm.WellFormed) (possible : env.Possible bm) {next : Option Addition}
    (here : t.place = .flush next) :
    Effect codec env bm t (flushBegin env bm next).1 (flushBegin env bm next).2 := by
  obtain ⟨steps,outcome⟩ := flushBegin_spec env next wf possible.2.2
  rcases outcome with ⟨error,idle⟩ | ⟨waits,busy,same⟩ | ⟨place,idle,bm1,first,failed,second,flushed⟩
  · rw [error]
    exact .failed _ steps (by simp [here,Place.fallible]) fun failed => Or.inr ⟨by simp [here,Place.flushes],idle failed⟩
  · rw [waits]
    exact .flushWaits next _ here steps busy same
  · rw [place]
    exact .flushed next bm1 _ (Or.inl ⟨here,failed⟩) idle first second flushed

theorem upload_effect (wf : bm.WellFormed) {c : ID} {packBlobID : BlobID} (here : t.place = .upload c packBlobID)
    {pp : PendingPackInfo} (found : bm.writingPacks.find? (·.packBlobID = packBlobID) = some pp)
    {bm1 : WriteManager} {pp' : PendingPackInfo} {packFileIndex : Option Builder}
    (written : bm.prepareAndWritePack env pp = (bm1,pp',packFileIndex)) :
    Effect codec env bm t
      {bm1 with writingPacks := bm1.writingPacks.map fun p => if p.packBlobID = pp'.packBlobID then pp' else p}
      (.processResult c packBlobID packFileIndex.isSome) := by
  have name : pp.packBlobID = packBlobID := by simpa using List.find?_some found
  obtain ⟨before,after,split⟩ := List.append_of_mem (List.mem_of_find?_eq_some found)
  obtain ⟨blobs,qq,index,spec,prepared,refused,stored⟩ := prepareAndWritePack_spec env bm pp
  rw [written] at spec
  simp only [Prod.mk.injEq] at spec
  obtain ⟨rfl,rfl,rfl⟩ := spec
  subst name
  have replaced : (bm.writingPacks.map fun p => if p.packBlobID = pp.packBlobID then pp' else p) =
      before ++ pp' :: after := replaceWriting_eq wf split
  rw [← prepared.name] at replaced
  dsimp only
  rw [replaced]
  refine .uploaded c before pp after pp' blobs _ here split prepared ?_
  cases packFileIndex with
  | none => exact Or.inr ⟨rfl,refused rfl⟩
  | some index => exact Or.inl ⟨rfl,(stored index rfl).1⟩

theorem processResult_effect (wf : bm.WellFormed) {c : ID} {packBlobID : BlobID} {stored : Bool}
    (here : t.place = .processResult c packBlobID stored) {pp : PendingPackInfo}
    (found : bm.writingPacks.find? (·.packBlobID = packBlobID) = some pp) {bm1 : WriteManager} {ok : Bool}
    (done : bm.processWritePackResult pp
      (if stored = true then some (Builder.empty.addAll pp.currentPackItems.infos) else none) = (bm1,ok)) :
    Effect codec env bm t bm1 (.returned ok) := by
  have name : pp.packBlobID = packBlobID := by simpa using List.find?_some found
  obtain ⟨before,after,split⟩ := List.append_of_mem (List.mem_of_find?_eq_some found)
  subst name
  rcases processed_spec wf split stored with ⟨rfl,built,indexed,shape⟩ | ⟨rfl,shape⟩
  · rw [done] at shape
    simp only [Prod.mk.injEq] at shape
    obtain ⟨rfl,rfl⟩ := shape
    exact .indexed c before pp after built here split indexed
  · rw [done] at shape
    simp only [Prod.mk.injEq] at shape
    obtain ⟨rfl,rfl⟩ := shape
    exact .notStored c before pp after here split

theorem readContent_effect {c : ID} {mp : MutableParameters} (here : t.place = .readContent) (only : Bool)
    (call : t.call = if only then .UndeleteContent c mp else .RewriteContent c mp) :
    Effect codec env bm t bm (readContent codec bm c only mp) := by
  unfold readContent
  cases found : bm.getContentDataAndInfo codec c with
  | none => exact .failed bm Relation.ReflTransGen.refl (by simp [here,Place.fallible]) fun _ => Or.inl rfl
  | some result =>
    obtain ⟨data,bi⟩ := result
    have info := ContentInfo_of_getContentDataAndInfo found
    dsimp only
    cases only with
    | true =>
      cases deleted : bi.deleted with
      | false => exact .notDeleted c mp bi call here info deleted
      | true => exact .read _ (.undeleted mp bi call here found deleted rfl rfl rfl)
    | false => exact .read _ (.rewritten mp bi call here found rfl rfl rfl)

theorem Thread.run_effect (wf : bm.WellFormed) (possible : env.Possible bm)
    (taken : t.run codec env bm = some (bm',place)) : Effect codec env bm t bm' place := by
  unfold Thread.run at taken
  cases here : t.place with
  | retryFailed =>
    rw [here] at taken
    cases call : t.call with
    | WriteContent data idPrefix comp mp =>
      rw [call] at taken
      dsimp only at taken
      split at taken
      · contradiction
      · obtain ⟨steps,_,_,emptied⟩ := retryFailedPacks_spec env wf
        have none : bm.failedPacks = [] → bm.retryFailedPacks env = (bm,true) := retryFailedPacks_none env
        cases retried : bm.retryFailedPacks env with
        | mk bm1 ok =>
          rw [retried] at taken steps emptied none
          cases ok with
          | false =>
            cases Option.some.inj taken
            exact .failed _ steps (by simp [here,Place.fallible]) fun failed => by simpa using none failed
          | true =>
            dsimp only at taken
            cases hashed : IDFromHash idPrefix (codec.hashData data) with
            | error e =>
              rw [hashed] at taken
              cases Option.some.inj taken
              exact .failed _ steps (by simp [here,Place.fallible]) fun failed =>
                Or.inl (congrArg Prod.fst (none failed))
            | ok c =>
              rw [hashed] at taken
              cases Option.some.inj taken
              refine .retried _ c steps (emptied rfl) here ?_
              simp [call,Call.writes,hashed,Except.toOption]
    | _ =>
      rw [call] at taken
      contradiction
  | lookup c =>
    rw [here] at taken
    cases call : t.call with
    | WriteContent data idPrefix comp mp =>
      rw [call] at taken
      cases Option.some.inj taken
      unfold writeAfterLookup
      cases info : bm.ContentInfo c with
      | none =>
        refine .read _ (.written data idPrefix comp mp call here ?_ rfl rfl rfl ?_)
        · intro bi there
          cases info.symm.trans there
        · simp [lastWriteTime,info]
      | some bi =>
        dsimp only
        cases deleted : bi.deleted with
        | false => exact .present c bi here info deleted
        | true =>
          refine .read _ (.written data idPrefix comp mp call here ?_ rfl rfl rfl ?_)
          · intro other there
            exact Option.some.inj (info.symm.trans there) ▸ deleted
          · simp [lastWriteTime,info]
    | _ =>
      rw [call] at taken
      contradiction
  | readContent =>
    rw [here] at taken
    cases call : t.call with
    | RewriteContent c mp =>
      rw [call] at taken
      cases Option.some.inj taken
      exact readContent_effect here false call
    | UndeleteContent c mp =>
      rw [call] at taken
      cases Option.some.inj taken
      exact readContent_effect here true call
    | _ =>
      rw [call] at taken
      contradiction
  | checkFlush a =>
    rw [here] at taken
    cases Option.some.inj taken
    split
    · exact .due a here
    · exact .notDue a here
  | flush next =>
    rw [here] at taken
    have done : Effect codec env bm t _ _ := flushBegin_effect wf possible here
    rw [Option.some.inj taken] at done
    exact done
  | flushWait next =>
    rw [here] at taken
    dsimp only at taken
    split at taken
    next idle =>
      have done : Effect codec env bm t _ _ := flushFinish_effect wf possible here idle
      rw [Option.some.inj taken] at done
      exact done
    · contradiction
  | publish a =>
    rw [here] at taken
    dsimp only at taken
    split at taken
    · cases Option.some.inj taken
      exact .failed bm Relation.ReflTransGen.refl (by simp [here,Place.fallible]) fun _ => Or.inl rfl
    next actualComp packed encrypted =>
      split at taken
      next lost =>
        cases Option.some.inj taken
        simp only [lostRace,Bool.and_eq_true,decide_eq_true_eq,Option.isSome_iff_exists] at lost
        obtain ⟨early,found,there⟩ := lost
        exact .lost a found.2 here early (by simp [ContentInfo,there])
      next present =>
        split at taken
        · cases Option.some.inj taken
          exact .waits a here
        · have done : Effect codec env bm t _ _ := publishLocked_effect wf possible
            (Or.inl ⟨here,by simpa using present⟩) encrypted
          rw [Option.some.inj taken] at done
          exact done
  | publishWait a =>
    rw [here] at taken
    dsimp only at taken
    split at taken
    · contradiction
    · split at taken
      · contradiction
      next actualComp packed encrypted =>
        have done : Effect codec env bm t _ _ := publishLocked_effect wf possible (Or.inr here) encrypted
        rw [Option.some.inj taken] at done
        exact done
  | upload c packBlobID =>
    rw [here] at taken
    dsimp only at taken
    split at taken
    · contradiction
    next pp found =>
      cases written : bm.prepareAndWritePack env pp with
      | mk bm1 rest =>
        obtain ⟨pp',index⟩ := rest
        rw [written] at taken
        cases Option.some.inj taken
        exact upload_effect wf here found written
  | processResult c packBlobID stored =>
    rw [here] at taken
    dsimp only at taken
    split at taken
    · contradiction
    next pp found =>
      cases done : bm.processWritePackResult pp
          (if stored = true then some (Builder.empty.addAll pp.currentPackItems.infos) else none) with
      | mk bm1 ok =>
        rw [done] at taken
        cases Option.some.inj taken
        exact processResult_effect wf here found done
  | delete =>
    rw [here] at taken
    cases call : t.call with
    | DeleteContent c =>
      rw [call] at taken
      cases done : bm.DeleteContent env c with
      | mk bm1 ok =>
        dsimp only at taken
        rw [done] at taken
        cases Option.some.inj taken
        exact .deleted c _ _ call here done
    | _ =>
      rw [call] at taken
      contradiction
  | returned ok =>
    rw [here] at taken
    contradiction

end Inversion

end Vbe.Content
