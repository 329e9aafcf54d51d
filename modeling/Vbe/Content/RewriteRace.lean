import Vbe.Content.Answers
import Vbe.Content.Status

/-! One `RewriteContent` or `UndeleteContent` of a content, one `DeleteContent` of it
and any flushes, in any order of their sections and without storage failures. As long
as the deletion keeps out of the time between the reading of the content and its
publication, the calls take effect one after the other. -/
namespace Vbe.Content
open Vbe.Index WriteManager Vbe.Library.Runs

section Outcomes

/-- What a lookup says of a content. -/
def WriteManager.status (bm : WriteManager) (c : ID) : Status := .answered (bm.ContentInfo c)

theorem WriteManager.status_eq (bm : WriteManager) (c : ID) :
    bm.status c = (bm.layers c).status bm.deletionWatermark := by
  rw [WriteManager.status,ContentInfo_eq]
  rfl

/-- What a call alone does to a content, and what it returns. A rewrite may fail to
read the content, and a deletion may take back a content that is not committed. -/
inductive Call.Does (c : ID) : Call → Status → Bool → Status → Prop
  | rewritten (mp : MutableParameters) (s : Status) : s ≠ .absent → Does c (.RewriteContent c mp) s true s
  | notRewritten (mp : MutableParameters) (s : Status) : Does c (.RewriteContent c mp) s false s
  | undeleted (mp : MutableParameters) (s : Status) : s ≠ .absent → Does c (.UndeleteContent c mp) s true .live
  | notUndeleted (mp : MutableParameters) (s : Status) : Does c (.UndeleteContent c mp) s false s
  | deleted (s s' : Status) : s ≠ .absent → s' ≠ .live → (s = .deleted → s' = .deleted) →
      Does c (.DeleteContent c) s true s'
  | notDeleted (s : Status) : s ≠ .live → Does c (.DeleteContent c) s false s

/-- The calls that publish a content again. -/
def Call.Rewrites (c : ID) (call : Call) : Prop := ∃ mp, call = .RewriteContent c mp ∨ call = .UndeleteContent c mp

/-- A rewrite and a deletion have taken effect one after the other, each with what it
returns, or not yet. -/
inductive Serial (c : ID) (rewrite : Call) (start : Status) : Option Bool → Option Bool → Status → Prop
  | neither : Serial c rewrite start none none start
  | rewritten (ok : Bool) (s : Status) : rewrite.Does c start ok s → Serial c rewrite start (some ok) none s
  | deleted (ok : Bool) (s : Status) : (Call.DeleteContent c).Does c start ok s → Serial c rewrite start none (some ok) s
  | rewrittenFirst (ok ok' : Bool) (s s' : Status) : rewrite.Does c start ok s → (Call.DeleteContent c).Does c s ok' s' →
      Serial c rewrite start (some ok) (some ok') s'
  | deletedFirst (ok ok' : Bool) (s s' : Status) : (Call.DeleteContent c).Does c start ok' s → rewrite.Does c s ok s' →
      Serial c rewrite start (some ok) (some ok') s'

variable {c : ID} {rewrite : Call} {start s s' : Status} {ok : Bool} {rewritten deleted : Option Bool}

theorem Serial.rewrites (serial : Serial c rewrite start none deleted s) (does : rewrite.Does c s ok s') :
    Serial c rewrite start (some ok) deleted s' := by
  cases serial with
  | neither => exact .rewritten ok s' does
  | deleted ok' s first => exact .deletedFirst ok ok' s s' first does

theorem Serial.deletes (serial : Serial c rewrite start rewritten none s)
    (does : (Call.DeleteContent c).Does c s ok s') : Serial c rewrite start rewritten (some ok) s' := by
  cases serial with
  | neither => exact .deleted ok s' does
  | rewritten ok' s first => exact .rewrittenFirst ok' ok s s' first does

/-- In either order a rewrite and a deletion leave a live content not live. -/
theorem Serial.live_not_live {mp : MutableParameters}
    (serial : Serial c (.RewriteContent c mp) .live (some true) (some true) s) : s ≠ .live := by
  cases serial with
  | rewrittenFirst _ _ mid _ first second =>
    cases second with
    | deleted _ _ _ notLive => exact notLive
  | deletedFirst _ _ mid _ first second =>
    cases first with
    | deleted _ _ _ notLive =>
      cases second with
      | rewritten => exact notLive

end Outcomes

section Unmoved
variable {codec : Codec} {env : Env} {bm bm' : WriteManager} {t : Thread} {place : Place} {c : ID}

/-- A step that does not touch the status of a content, nor what a rewrite of it has
read. -/
structure Unmoved (c : ID) (bm bm' : WriteManager) : Prop where
  status : bm'.status c = bm.status c
  tiered : (bm'.layers c).Tiered bm'.deletionWatermark
  writing : bm'.writingPacks.length ≤ bm.writingPacks.length
  early : bm.writingPacks = [] → (∀ d, (bm.layers d).Ordered bm.deletionWatermark) →
    (∀ d, (bm'.layers d).Ordered bm'.deletionWatermark) ∧ ∀ a, UpToDate bm a → UpToDate bm' a

theorem Unmoved.of_layers (tiered : (bm.layers c).Tiered bm.deletionWatermark) (layers : ∀ d, bm'.layers d = bm.layers d)
    (watermark : bm'.deletionWatermark = bm.deletionWatermark)
    (writing : bm'.writingPacks.length ≤ bm.writingPacks.length) : Unmoved c bm bm' := by
  refine ⟨?_,?_,writing,fun _ ordered => ⟨fun d => ?_,fun a upToDate => ?_⟩⟩
  · rw [status_eq,status_eq,layers,watermark]
  · rw [layers,watermark]
    exact tiered
  · rw [layers,watermark]
    exact ordered d
  · unfold UpToDate at upToDate ⊢
    rw [layers,watermark]
    exact upToDate

/-- A flush while nothing is being written. -/
theorem Unmoved.flush (steps : LockedSteps env bm bm') (wf : bm.WellFormed) (noFailure : env.NoFailure)
    (failed : bm.failedPacks = []) (idle : bm.writingPacks = []) (tiered : (bm.layers c).Tiered bm.deletionWatermark)
    (kept : KeptByFlush bm c) : Unmoved c bm bm' := by
  have surroundings := steps.surroundings wf
  have moves : Layers.Moves False (bm.layers c) (bm'.layers c) :=
    steps.layers wf c fun pp _ _ refused => by simp [noFailure.1] at refused
  obtain ⟨same,after,_⟩ := tiered.moves ((keptByFlush_iff idle).mp kept) (by simp [WriteManager.layers,idle])
    (by simp [WriteManager.layers,failed]) moves
  refine ⟨?_,?_,by rw [surroundings.writing],fun _ ordered => ⟨fun d => ?_,fun a upToDate => ?_⟩⟩
  · rw [status_eq,status_eq,surroundings.deletionWatermark]
    exact same
  · rw [surroundings.deletionWatermark]
    exact after
  · rw [surroundings.deletionWatermark]
    exact (ordered d).sublist (steps.seen_sublist wf noFailure idle failed (ordered d))
  · exact upToDate.locked steps wf noFailure idle failed ordered

/-- What a rewrite or a deletion has taken effect with, from its publication on. -/
def Place.effected : Place → Option Bool
  | .upload _ _ => some true
  | .processResult _ _ _ => some true
  | .returned ok => some ok
  | _ => none

/-- The publication of an addition. -/
structure PublishedFrom (env : Env) (bm bm' : WriteManager) (a : Addition) (x : Info) (moved : Bool) : Prop where
  published : Published bm bm' x moved
  contentID : x.contentID = a.contentID
  deleted : x.deleted = a.isDeleted
  time : x.timestampSeconds = contentWriteTime env a.previousWriteTime
  writing : bm'.writingPacks.length ≤ bm.writingPacks.length + 1

theorem EntryFor.publishedFrom {bm1 : WriteManager} {a : Addition} {x : Info} {moved : Bool} {packs : List PendingPackInfo}
    (entry : EntryFor codec env bm1 a x bm') (published : Published bm1 bm' x moved) (same : bm1 = bm)
    (writing : bm'.writingPacks = bm1.writingPacks ++ packs) (one : packs.length ≤ 1) :
    PublishedFrom env bm bm' a x moved := by
  subst same
  refine ⟨published,entry.contentID,entry.deleted,entry.time,?_⟩
  rw [writing,List.length_append]
  exact Nat.add_le_add_left one _

/-- Only publications and deletions can change the status of a content. -/
theorem Effect.unmoved_or (effect : Effect codec env bm t bm' place) (wf : bm.WellFormed) (noFailure : env.NoFailure)
    (failed : bm.failedPacks = []) (accepted : ∀ d name, t.place ≠ .processResult d name false)
    (alone : bm.writingPacks.length ≤ 1) (tiered : (bm.layers c).Tiered bm.deletionWatermark)
    (kept : t.place.flushes = true → bm.writingPacks = [] → KeptByFlush bm c)
    (reads : ∀ d, t.call.writes codec ≠ some d) :
    Unmoved c bm bm' ∨
    (∃ a x moved, t.place.addition = some a ∧ place.effected = some true ∧ PublishedFrom env bm bm' a x moved) ∨
    ∃ d ok, t.call = .DeleteContent d ∧ place = .returned ok ∧ bm.DeleteContent env d = (bm',ok) := by
  have still : Unmoved c bm bm := .of_layers tiered (fun _ => rfl) rfl (le_refl _)
  have addition {a : Addition} (standing : t.place = .publish a ∧ lostRace bm a = false ∨ t.place = .publishWait a) :
      t.place.addition = some a := by
    rcases standing with ⟨here,_⟩ | here <;> rw [here] <;> rfl
  cases effect with
  | failed bm' steps _ cause =>
    rcases cause failed with rfl | ⟨flushes,idle⟩
    · exact Or.inl still
    · exact Or.inl (.flush steps wf noFailure failed idle tiered (kept flushes idle))
  | retried bm' d _ _ _ writes => exact absurd writes (reads d)
  | flushWaits next bm' _ _ _ same =>
    rw [same failed]
    exact Or.inl (.of_layers tiered (fun _ => rfl) rfl (le_refl _))
  | flushed next bm1 bm' standing idle first second =>
    have flushes : t.place.flushes = true := by rcases standing with ⟨here,_⟩ | ⟨here,_⟩ <;> rw [here] <;> rfl
    exact Or.inl (.flush (Relation.ReflTransGen.trans first second) wf noFailure failed idle tiered (kept flushes idle))
  | published a bm1 bm' x standing _ _ _ entry published writing same =>
    exact Or.inr (Or.inl ⟨a,x,false,addition standing,rfl,
      entry.publishedFrom published (same failed) (writing.trans (List.append_nil _).symm) (Nat.zero_le 1)⟩)
  | publishedFull a bm1 bm' x pp standing _ _ _ entry published writing _ _ same =>
    exact Or.inr (Or.inl ⟨a,x,true,addition standing,rfl,
      entry.publishedFrom published (same failed) writing (le_refl 1)⟩)
  | uploaded d before pp after pp' blobs stored _ split prepared =>
    exact Or.inl (.of_layers tiered (uploaded_layers split prepared blobs) rfl (by simp [withUploaded,split]))
  | indexed d before pp after built _ split indexed =>
    have processed := (processed_layers split c False).1 built indexed
    have single : (bm.layers c).writing.length ≤ 1 := le_trans (List.length_filterMap_le _ _) alone
    obtain ⟨same,after⟩ := tiered.processed single processed
    refine Or.inl ⟨?_,after,by simp [withProcessed,split],fun idle => by simp [idle] at split⟩
    rw [status_eq,status_eq]
    exact same
  | notStored d before pp after here => exact absurd here (accepted d _)
  | deleted d bm' ok call _ done => exact Or.inr (Or.inr ⟨d,ok,call,rfl,done⟩)
  | _ => exact Or.inl still

end Unmoved

section Sections
variable {codec : Codec} {env : Env} {bm bm' : WriteManager} {t : Thread} {place : Place} {c : ID}

theorem answered_head {l : List Info} (gone : ∀ z ∈ l, z.deleted = true) : Status.answered l.head? ≠ .live := by
  cases l with
  | nil => simp [Status.answered]
  | cons z rest => simp [Status.answered,Status.of,gone z (by simp)]

/-- A deletion that does not find the content live twice does what it should. -/
theorem DeleteContent_does (wf : bm.WellFormed) (fresh : FreshNames env bm) (started : env.sessionStarted = true) {ok : Bool}
    (done : bm.DeleteContent env c = (bm',ok)) (tiered : (bm.layers c).Tiered bm.deletionWatermark)
    (once : ¬LiveTwice bm c) : (Call.DeleteContent c).Does c (bm.status c) ok (bm'.status c) ∧
      (bm'.layers c).Tiered bm'.deletionWatermark ∧ bm'.writingPacks = bm.writingPacks := by
  have seen : (bm.layers c).seen bm.deletionWatermark = (bm.layers c).pending.toList ++
      ((bm.layers c).publish none).seen bm.deletionWatermark := by
    simp [Layers.seen,Layers.publish]
  rw [status_eq,status_eq]
  rcases DeleteContent_spec wf fresh c with ⟨bm1,x,shape,pending,live,republished⟩ |
    ⟨gone,⟨shape,none⟩ | ⟨y,target,⟨shape,old⟩ | ⟨bm1,shape,alive,republished⟩⟩⟩
  · cases shape.symm.trans done
    rw [republished.layers c,if_pos rfl,republished.same.deletionWatermark]
    refine ⟨?_,tiered.sublist Layers.seen_publish_none,republished.writing⟩
    have before : (bm.layers c).status bm.deletionWatermark = .live := by
      simp [Layers.status,Layers.answer,Layers.seen,pending,Status.answered,Status.of,live]
    rw [before]
    refine .deleted _ _ (by simp) (fun after => once ?_) (by simp)
    rw [liveTwice_iff]
    refine ⟨⟨x,pending,live⟩,?_⟩
    unfold Layers.status at after
    cases answer : ((bm.layers c).publish Option.none).answer bm.deletionWatermark with
    | none => simp [answer,Status.answered] at after
    | some i =>
      refine ⟨i,rfl,?_⟩
      cases deleted : i.deleted with
      | false => rfl
      | true => simp [answer,Status.answered,Status.of,deleted] at after
  · cases shape.symm.trans done
    refine ⟨.notDeleted _ ?_,tiered,rfl⟩
    have target : (bm.layers c).deleteTarget bm.deletionWatermark = Option.none := by
      rcases none with target | refused
      · exact target
      · simp [started] at refused
    unfold Layers.status Layers.answer
    refine answered_head fun z member => ?_
    rw [seen] at member
    rcases List.mem_append.mp member with top | below
    · exact gone z (by simpa using top)
    · exact Layers.deleteTarget_none target z below
  · cases shape.symm.trans done
    obtain ⟨before,after,split,dead⟩ := Layers.deleteTarget_split target
    have deleted : (bm.layers c).status bm.deletionWatermark = .deleted := by
      rw [Layers.status,Layers.answer,seen,split]
      cases pending : (bm.layers c).pending with
      | some x => simp [Status.answered,Status.of,gone x pending]
      | none =>
        cases before with
        | nil => simp [Status.answered,Status.of,old]
        | cons z rest => simp [Status.answered,Status.of,dead z (by simp)]
    rw [deleted]
    exact ⟨.deleted _ _ (by simp) (by simp) fun _ => rfl,tiered,rfl⟩
  · cases shape.symm.trans done
    obtain ⟨before,after,split,dead⟩ := Layers.deleteTarget_split target
    have below := tiered.sublist Layers.seen_publish_none (w := (bm.layers c).publish Option.none)
    have ahead : ∀ z ∈ ((bm.layers c).publish Option.none).seen bm.deletionWatermark,
        Layers.Over (deletedInfo y (contentWriteTime env y.timestampSeconds)) z := by
      have newer : y.timestampSeconds < (deletedInfo y (contentWriteTime env y.timestampSeconds)).timestampSeconds :=
        lt_contentWriteTime env y.timestampSeconds
      rw [Layers.Tiered,split] at below
      intro z member
      rw [split] at member
      rcases List.mem_append.mp member with above | rest
      · exact Or.inr ⟨rfl,dead z above⟩
      · rcases List.mem_cons.mp rest with rfl | under
        · exact Or.inl newer
        · rcases (List.pairwise_cons.mp (List.pairwise_append.mp below).2.1).1 z under with older | ⟨both,_⟩
          · exact Or.inl (lt_trans older newer)
          · simp [alive] at both
    obtain ⟨after,deleted⟩ := tiered.publish ahead
    rw [republished.layers c,if_pos rfl,republished.same.deletionWatermark,deleted]
    refine ⟨.deleted _ _ ?_ (by simp [deletedInfo,Status.of]) fun _ => rfl,after,republished.writing⟩
    rw [Layers.status,Layers.answer,seen,split]
    cases pending : (bm.layers c).pending with
    | some x => simp [Status.answered,Status.of,gone x pending]
    | none =>
      cases before with
      | nil => simp [Status.answered,Status.of,alive]
      | cons z rest => simp [Status.answered,Status.of,dead z (by simp)]

/-- What a rewrite has read still is as it was. -/
structure Promised (c : ID) (call : Call) (bm : WriteManager) (a : Addition) : Prop where
  contentID : a.contentID = c
  upToDate : UpToDate bm a
  does : call.Does c (bm.status c) true (.of a.isDeleted)

theorem Promised.unmoved {call : Call} {a : Addition} (promised : Promised c call bm a) (unmoved : Unmoved c bm bm')
    (writing : bm.writingPacks = []) (ordered : ∀ d, (bm.layers d).Ordered bm.deletionWatermark) :
    Promised c call bm' a :=
  ⟨promised.contentID,(unmoved.early writing ordered).2 a promised.upToDate,unmoved.status.symm ▸ promised.does⟩

/-- The publication of what a rewrite has read. -/
theorem PublishedFrom.does {a : Addition} {x : Info} {moved : Bool} (published : PublishedFrom env bm bm' a x moved)
    (promised : Promised c t.call bm a) (writing : bm.writingPacks = [])
    (tiered : (bm.layers c).Tiered bm.deletionWatermark) : t.call.Does c (bm.status c) true (bm'.status c) ∧
      (bm'.layers c).Tiered bm'.deletionWatermark ∧ bm'.writingPacks.length ≤ 1 := by
  have own : x.contentID = c := published.contentID.trans promised.contentID
  have ahead : ∀ y ∈ ((bm.layers c).publish none).seen bm.deletionWatermark, Layers.Over x y := by
    intro y member
    have before := promised.upToDate y (promised.contentID.symm ▸ Layers.seen_publish_none.subset member)
    refine Or.inl (lt_of_le_of_lt before ?_)
    rw [published.time]
    exact lt_contentWriteTime env a.previousWriteTime
  obtain ⟨after,same⟩ := tiered.publish ahead
  have unwritten : ((bm.layers c).publish (some x)).writing = [] := by
    simp [Layers.publish,WriteManager.layers,writing]
  have short := published.writing
  rw [writing] at short
  have shape : bm'.layers c = ((bm.layers c).publish (some x)).startWriting ∨
      bm'.layers c = (bm.layers c).publish (some x) := by
    rw [published.published.layers c,own]
    simp only [if_true]
    split
    · exact Or.inl rfl
    · exact Or.inr rfl
  have found : (bm'.layers c).status bm.deletionWatermark = .of x.deleted ∧
      (bm'.layers c).Tiered bm.deletionWatermark := by
    rcases shape with moved | stays
    · obtain ⟨kept,keeps⟩ := Layers.status_startWriting bm.deletionWatermark unwritten
      rw [moved]
      exact ⟨kept.trans same,keeps after⟩
    · rw [stays]
      exact ⟨same,after⟩
  rw [status_eq bm',published.published.same.deletionWatermark,found.1,published.deleted]
  exact ⟨promised.does,found.2,short⟩

/-- A step of a rewrite either leaves the status alone, and what it has read as it
was, or publishes, or returns, once for all. -/
theorem Effect.rewrites (effect : Effect codec env bm t bm' place) (wf : bm.WellFormed) (sound : t.Sound codec)
    (call : t.call.Rewrites c) (noFailure : env.NoFailure) (failed : bm.failedPacks = [])
    (accepted : ∀ d name, t.place ≠ .processResult d name false) (alone : bm.writingPacks.length ≤ 1)
    (tiered : (bm.layers c).Tiered bm.deletionWatermark)
    (kept : t.place.flushes = true → bm.writingPacks = [] → KeptByFlush bm c)
    (dated : ∀ a, t.place = .publish a → 0 ≤ a.previousWriteTime)
    (early : t.place.effected = none → bm.writingPacks = [] ∧ (∀ d, (bm.layers d).Ordered bm.deletionWatermark) ∧
      ∀ a, t.place.addition = some a → Promised c t.call bm a) :
    (place.effected = t.place.effected ∧ Unmoved c bm bm' ∧ ∀ a, place.addition = some a → Promised c t.call bm' a) ∨
    (t.place.effected = none ∧ ∃ ok, place.effected = some ok ∧ t.call.Does c (bm.status c) ok (bm'.status c) ∧
      (bm'.layers c).Tiered bm'.deletionWatermark ∧ bm'.writingPacks.length ≤ 1) := by
  have reads : ∀ d, t.call.writes codec ≠ some d := by
    obtain ⟨mp,call | call⟩ := call <;> simp [call,Call.writes]
  have notDelete : ∀ d, t.call ≠ .DeleteContent d := by
    obtain ⟨mp,call | call⟩ := call <;> simp [call]
  have fails (s : Status) : t.call.Does c s false s := by
    obtain ⟨mp,call | call⟩ := call <;> rw [call]
    · exact .notRewritten mp s
    · exact .notUndeleted mp s
  have publishes {a : Addition} {x : Info} {moved : Bool} (addition : t.place.addition = some a)
      (effected : place.effected = some true) (published : PublishedFrom env bm bm' a x moved) :
      t.place.effected = none ∧ ∃ ok, place.effected = some ok ∧ t.call.Does c (bm.status c) ok (bm'.status c) ∧
        (bm'.layers c).Tiered bm'.deletionWatermark ∧ bm'.writingPacks.length ≤ 1 := by
    have notYet : t.place.effected = none := by
      cases here : t.place <;> simp [here,Place.addition] at addition <;> rfl
    obtain ⟨writing,_,promised⟩ := early notYet
    obtain ⟨does,after,short⟩ := published.does (promised a addition) writing tiered
    exact ⟨notYet,true,effected,does,after,short⟩
  have addition {a : Addition} (standing : t.place = .publish a ∧ lostRace bm a = false ∨ t.place = .publishWait a) :
      t.place.addition = some a := by
    rcases standing with ⟨here,_⟩ | here <;> rw [here] <;> rfl
  rcases effect.unmoved_or wf noFailure failed accepted alone tiered kept reads with
    unmoved | ⟨a,x,moved,addition,effected,published⟩ | ⟨d,ok,other,_⟩
  case inr.inl => exact Or.inr (publishes addition effected published)
  case inr.inr => exact absurd other (notDelete d)
  have short := le_trans unmoved.writing alone
  have stays {here : Place} (standing : t.place = here) (notYet : here.effected = none) (undone : place.effected = none)
      (same : ∀ a, place.addition = some a → here.addition = some a) :
      place.effected = t.place.effected ∧ Unmoved c bm bm' ∧ ∀ a, place.addition = some a → Promised c t.call bm' a := by
    obtain ⟨writing,ordered,promised⟩ := early (standing ▸ notYet)
    refine ⟨by rw [undone,standing,notYet],unmoved,fun a addition => ?_⟩
    exact (promised a (standing ▸ same a addition)).unmoved unmoved writing ordered
  have returns {ok : Bool} (returned : place.effected = some ok) (notYet : t.place.effected = none)
      (does : t.call.Does c (bm.status c) ok (bm.status c)) :
      t.place.effected = none ∧ ∃ ok, place.effected = some ok ∧ t.call.Does c (bm.status c) ok (bm'.status c) ∧
        (bm'.layers c).Tiered bm'.deletionWatermark ∧ bm'.writingPacks.length ≤ 1 :=
    ⟨notYet,ok,returned,unmoved.status.symm ▸ does,unmoved.tiered,short⟩
  cases effect with
  | failed bm' steps fallible =>
    refine Or.inr (returns rfl ?_ (fails _))
    cases here : t.place <;> simp [here,Place.fallible] at fallible <;> rfl
  | retried bm' d _ _ _ writes => exact absurd writes (reads d)
  | present d bi here =>
    simp only [Thread.Sound,here] at sound
    exact absurd sound (reads d)
  | notDeleted d mp bi other here found live =>
    refine Or.inr (returns rfl (by rw [here]; rfl) ?_)
    have same : c = d := by
      obtain ⟨mp',shape | shape⟩ := call <;> simp_all
    subst same
    have alive : bm.status c = .live := by simp [WriteManager.status,found,Status.answered,Status.of,live]
    rw [other,alive]
    exact .undeleted mp .live (by simp)
  | read a reads' =>
    refine Or.inl ⟨?_,unmoved,fun b addition => ?_⟩
    · cases reads' with
      | written _ _ _ _ shape => simp [shape,Call.Rewrites] at call
      | rewritten _ _ _ here => rw [here]; rfl
      | undeleted _ _ _ here => rw [here]; rfl
    · cases Option.some.inj addition
      have ordered : ∀ d, (bm.layers d).Ordered bm.deletionWatermark := by
        refine (early ?_).2.1
        cases reads' with
        | written _ _ _ _ shape => simp [shape,Call.Rewrites] at call
        | rewritten _ _ _ here => rw [here]; rfl
        | undeleted _ _ _ here => rw [here]; rfl
      have upToDate := reads'.upToDate ordered
      have present {bi : Info} (read : bm.getContentDataAndInfo codec a.contentID = some (a.data,bi)) :
          bm.status a.contentID = .of bi.deleted := by
        rw [WriteManager.status,ContentInfo_of_getContentDataAndInfo read]
        rfl
      have some (b : Bool) : Status.of b ≠ .absent := by cases b <;> simp [Status.of]
      cases reads' with
      | written _ _ _ _ shape => simp [shape,Call.Rewrites] at call
      | rewritten mp bi shape _ read deleted =>
        have own : a.contentID = c := by
          obtain ⟨mp',other | other⟩ := call <;> simp_all
        subst own
        refine ⟨rfl,upToDate,?_⟩
        rw [present read,shape,deleted]
        exact .rewritten mp _ (some _)
      | undeleted mp bi shape _ read deleted live =>
        have own : a.contentID = c := by
          obtain ⟨mp',other | other⟩ := call <;> simp_all
        subst own
        refine ⟨rfl,upToDate,?_⟩
        rw [present read,shape,live]
        exact .undeleted mp _ (some _)
  | due a here => exact Or.inl (stays here rfl rfl fun b same => same)
  | notDue a here => exact Or.inl (stays here rfl rfl fun b same => same)
  | flushWaits next bm' here => exact Or.inl (stays here rfl rfl fun b same => same)
  | flushed next bm1 bm' standing =>
    cases next with
    | none =>
      have flushing : t.call = .Flush := by rcases standing with ⟨here,_⟩ | ⟨here,_⟩ <;> simpa [Thread.Sound,here] using sound
      simp [flushing,Call.Rewrites] at call
    | some a =>
      rcases standing with ⟨here,_⟩ | ⟨here,_⟩
      · exact Or.inl (stays here rfl rfl fun b same => same)
      · exact Or.inl (stays here rfl rfl fun b same => same)
  | lost a bi here before => exact absurd (dated a here) (not_le.mpr before)
  | waits a here => exact Or.inl (stays here rfl rfl fun b same => same)
  | published a bm1 bm' x standing _ _ _ entry published writing same =>
    exact Or.inr (publishes (addition standing) rfl
      (entry.publishedFrom published (same failed) (writing.trans (List.append_nil _).symm) (Nat.zero_le 1)))
  | publishedFull a bm1 bm' x pp standing _ _ _ entry published writing _ _ same =>
    exact Or.inr (publishes (addition standing) rfl (entry.publishedFrom published (same failed) writing (le_refl 1)))
  | uploaded d before pp after pp' blobs stored here => exact Or.inl ⟨by rw [here]; rfl,unmoved,by simp [Place.addition]⟩
  | indexed d before pp after built here => exact Or.inl ⟨by rw [here]; rfl,unmoved,by simp [Place.addition]⟩
  | notStored d before pp after here => exact absurd here (accepted d _)
  | deleted d bm' ok other => exact absurd other (notDelete d)

end Sections

section Race
variable {codec : Codec} {c : ID} {rewrite : Call} {i j : Nat} {start : Status} {s s' : Machine}

/-- A deletion would find an entry that is live. -/
def FindsLive (bm : WriteManager) (c : ID) : Prop :=
  findLiveInPacks bm.pendingPacks c ≠ none ∨ findLiveInPacks bm.writingPacks c ≠ none ∨
    ∃ i ∈ (bm.packIndexBuilder.get? c).or (bm.getContent c), i.deleted = false

theorem DeleteContent_of_nothing_live {bm : WriteManager} (nothing : ¬FindsLive bm c) (env : Env) :
    (bm.DeleteContent env c).1 = bm := by
  simp only [FindsLive,not_or,not_not,not_exists,not_and,Bool.not_eq_false] at nothing
  obtain ⟨pending,writing,below⟩ := nothing
  unfold DeleteContent
  rw [pending,writing]
  dsimp only
  cases built : bm.packIndexBuilder.get? c with
  | some bi => simp [deletePreexistingContent,below bi (by simp [built])]
  | none =>
    cases committed : bm.getContent c with
    | none => rfl
    | some bi => simp [deletePreexistingContent,below bi (by simp [built,committed])]

/-- The threads of a race are the rewrite, the deletion and flushes. -/
def Cast (rewrite : Call) (c : ID) (i j : Nat) (s : Machine) : Label → Prop
  | .begin call =>
    if s.threads.length = i then call = rewrite
    else if s.threads.length = j then call = .DeleteContent c
    else call = .Flush
  | _ => True

instance (rewrite : Call) (c : ID) (i j : Nat) (s : Machine) : ∀ l, Decidable (Cast rewrite c i j s l)
  | .begin _ => inferInstanceAs (Decidable (if s.threads.length = i then _ else if s.threads.length = j then _ else _))
  | .run _ _ => .isTrue trivial
  | .refresh _ => .isTrue trivial

/-- The deletion does not find the content live after a rewrite has read it and before
it has published it, nor live twice; flushes keep what lookups say of the content; and
no entry is from before 1970. -/
def RaceCondition (c : ID) (s : Machine) : Label → Prop
  | .run k _ => ∀ t ∈ s.threads[k]?,
      (t.call = .DeleteContent c → ¬LiveTwice s.bm c ∧
        (FindsLive s.bm c → ∀ u ∈ s.threads, ∀ a ∈ u.place.addition, a.contentID ≠ c)) ∧
      (t.place.flushes = true → s.bm.writingPacks = [] → KeptByFlush s.bm c) ∧
      ∀ a ∈ t.place.addition, 0 ≤ a.previousWriteTime
  | _ => True

instance (bm : WriteManager) (c : ID) : Decidable (LiveTwice bm c) := by unfold LiveTwice; infer_instance

instance (bm : WriteManager) (c : ID) : Decidable (KeptByFlush bm c) := by unfold KeptByFlush; infer_instance

instance (bm : WriteManager) (c : ID) : Decidable (FindsLive bm c) := by unfold FindsLive; infer_instance

instance (c : ID) (s : Machine) : ∀ l, Decidable (RaceCondition c s l)
  | .begin _ => .isTrue trivial
  | .refresh _ => .isTrue trivial
  | .run k _ => by unfold RaceCondition; infer_instance

/-- What a thread has taken effect with. -/
def Machine.effected (s : Machine) (k : Nat) : Option Bool := s.threads[k]?.bind fun t => t.place.effected

structure RaceInvariant (codec : Codec) (rewrite : Call) (c : ID) (i j : Nat) (start : Status) (s : Machine) : Prop where
  consistent : s.Consistent codec
  failed : s.bm.failedPacks = []
  accepted : ∀ t ∈ s.threads, ∀ d name, t.place ≠ .processResult d name false
  cast : ∀ k t, s.threads[k]? = some t → (k = i → t.call = rewrite) ∧ (k = j → t.call = .DeleteContent c) ∧
    (k ≠ i → k ≠ j → t.call = .Flush ∨ t.Finished)
  serial : Serial c rewrite start (s.effected i) (s.effected j) (s.bm.status c)
  alone : s.bm.writingPacks.length ≤ 1
  tiered : (s.bm.layers c).Tiered s.bm.deletionWatermark
  early : s.effected i = none → s.bm.writingPacks = [] ∧ (∀ d, (s.bm.layers d).Ordered s.bm.deletionWatermark) ∧
    ∀ t ∈ s.threads[i]?, ∀ a, t.place.addition = some a → Promised c rewrite s.bm a

theorem Thread.Sound.flush {t : Thread} (sound : t.Sound codec) (call : t.call = .Flush) : t.place.addition = none := by
  obtain ⟨call',place⟩ := t
  dsimp only at call
  subst call
  cases place with
  | checkFlush a => cases sound
  | flush next =>
    cases next with
    | none => rfl
    | some a => cases sound
  | flushWait next =>
    cases next with
    | none => rfl
    | some a => cases sound
  | publish a => cases sound
  | publishWait a => cases sound
  | _ => rfl

theorem Thread.Sound.delete {t : Thread} (sound : t.Sound codec) (call : t.call = .DeleteContent c) :
    t.place = .delete ∨ t.Finished := by
  obtain ⟨call',place⟩ := t
  dsimp only at call
  subst call
  cases place with
  | delete => exact Or.inl rfl
  | returned ok => exact Or.inr ⟨ok,rfl⟩
  | retryFailed => simp [Thread.Sound] at sound
  | lookup d => cases sound
  | readContent => simp [Thread.Sound] at sound
  | checkFlush a => cases sound
  | flush next => cases next <;> cases sound
  | flushWait next => cases next <;> cases sound
  | publish a => cases sound
  | publishWait a => cases sound
  | upload d name =>
    obtain ⟨a,adds,_⟩ := sound
    cases adds
  | processResult d name stored =>
    obtain ⟨a,adds,_⟩ := sound
    cases adds

theorem effected_set {k m : Nat} {t u : Thread} {bm' : WriteManager} {acknowledged : List ID}
    (there : s.threads[k]? = some t) : (Machine.mk bm' (s.threads.set k u) acknowledged).effected m =
      if m = k then u.place.effected else s.effected m := by
  have inside : k < s.threads.length := (List.getElem?_eq_some_iff.mp there).1
  unfold Machine.effected
  split
  next same =>
    subst same
    simp [List.getElem?_set_self inside]
  next other =>
    rw [List.getElem?_set_ne (Ne.symm other)]

theorem RaceInvariant.begin {call : Call} (holds : RaceInvariant codec rewrite c i j start s)
    (cast : Cast rewrite c i j s (.begin call)) (apart : i ≠ j)
    (consistent : Machine.Consistent codec {s with threads := s.threads ++ [call.start]}) :
    RaceInvariant codec rewrite c i j start {s with threads := s.threads ++ [call.start]} := by
  have same (k : Nat) : Machine.effected {s with threads := s.threads ++ [call.start]} k = s.effected k := by
    unfold Machine.effected
    dsimp only
    by_cases inside : k < s.threads.length
    · rw [List.getElem?_append_left inside]
    · rw [List.getElem?_append_right (not_lt.mp inside),List.getElem?_eq_none (not_lt.mp inside)]
      cases k - s.threads.length with
      | zero => cases call <;> rfl
      | succ n => simp
  have either {k : Nat} {t : Thread} (there : (s.threads ++ [call.start])[k]? = some t) :
      s.threads[k]? = some t ∨ k = s.threads.length ∧ t = call.start := by
    by_cases inside : k < s.threads.length
    · rw [List.getElem?_append_left inside] at there
      exact Or.inl there
    · rw [List.getElem?_append_right (not_lt.mp inside)] at there
      obtain ⟨first,same⟩ := List.getElem?_eq_some_iff.mp there
      simp only [List.length_singleton] at first
      refine Or.inr ⟨by omega,?_⟩
      simpa using same.symm
  have starts : call.start.call = call ∧ call.start.place.addition = none ∧
      ∀ d name, call.start.place ≠ .processResult d name false := by
    cases call <;> simp [Call.start,Place.addition]
  refine ⟨consistent,holds.failed,fun t member => ?_,fun k t there => ?_,?_,holds.alone,holds.tiered,fun notYet => ?_⟩
  · rcases List.mem_append.mp member with old | new
    · exact holds.accepted t old
    · rw [List.mem_singleton.mp new]
      exact starts.2.2
  · rcases either there with old | ⟨rfl,rfl⟩
    · exact holds.cast k t old
    · rw [starts.1]
      unfold Cast at cast
      refine ⟨fun same => ?_,fun same => ?_,fun notRewrite notDelete => ?_⟩
      · simpa [same] using cast
      · simpa [same,Ne.symm apart] using cast
      · exact Or.inl (by simpa [notRewrite,notDelete] using cast)
  · rw [same,same]
    exact holds.serial
  · rw [same] at notYet
    obtain ⟨writing,ordered,promised⟩ := holds.early notYet
    refine ⟨writing,ordered,fun t there a addition => ?_⟩
    rcases either there with old | ⟨_,rfl⟩
    · exact promised t old a addition
    · rw [starts.2.1] at addition
      contradiction

theorem RaceInvariant.step {l : Label} (holds : RaceInvariant codec rewrite c i j start s) (rewrites : rewrite.Rewrites c)
    (apart : i ≠ j) (quiet : l.Quiet) (cast : Cast rewrite c i j s l) (condition : RaceCondition c s l)
    (taken : s.step codec l = some s') :
    RaceInvariant codec rewrite c i j start s' := by
  have consistent := holds.consistent.step taken
  rcases Machine.step_cases taken with ⟨call,rfl,rfl⟩ | ⟨k,env,t,bm',place,rfl,there,possible,ran,rfl⟩ | ⟨loaded,rfl,_⟩
  case inr.inr => exact quiet.elim
  case inl => exact holds.begin cast apart consistent
  have wf := holds.consistent.wellFormed
  have member := List.mem_of_getElem? there
  have sound := holds.consistent.sound t member
  have effect := Thread.run_effect wf possible ran
  have noFailure : env.NoFailure := quiet
  obtain ⟨deletes,kept,dated⟩ := condition t there
  obtain ⟨failed,accepted⟩ := effect.noneFailed wf possible noFailure (holds.accepted t member) holds.failed
  have accepted : ∀ u ∈ s.threads.set k {t with place := place}, ∀ d name, u.place ≠ .processResult d name false := by
    intro u inside
    rcases mem_set_thread inside with rfl | old
    · exact accepted
    · exact holds.accepted u old
  have roles : ∀ m u, (s.threads.set k {t with place := place})[m]? = some u → (m = i → u.call = rewrite) ∧
      (m = j → u.call = .DeleteContent c) ∧ (m ≠ i → m ≠ j → u.call = .Flush ∨ u.Finished) := by
    intro m u found
    by_cases same : m = k
    · subst same
      rw [List.getElem?_set_self (List.getElem?_eq_some_iff.mp there).1] at found
      cases Option.some.inj found
      refine ⟨(holds.cast m t there).1,(holds.cast m t there).2.1,fun notRewrite notDelete => ?_⟩
      rcases (holds.cast m t there).2.2 notRewrite notDelete with flush | finished
      · exact Or.inl flush
      · rw [finished.stays] at ran
        contradiction
    · rw [List.getElem?_set_ne (Ne.symm same)] at found
      exact holds.cast m u found
  have others {m : Nat} (other : m ≠ k) : (s.threads.set k {t with place := place})[m]? = s.threads[m]? :=
    List.getElem?_set_ne (Ne.symm other)
  have itself : (s.threads.set k {t with place := place})[k]? = some {t with place := place} :=
    List.getElem?_set_self (List.getElem?_eq_some_iff.mp there).1
  by_cases isRewrite : k = i
  · -- the rewrite
    subst isRewrite
    have call := (holds.cast k t there).1 rfl
    have own : s.effected k = t.place.effected := by simp [Machine.effected,there]
    rcases effect.rewrites wf sound (call ▸ rewrites) noFailure holds.failed (holds.accepted t member) holds.alone
      holds.tiered kept (fun a here => dated a (by rw [here]; rfl)) (fun notYet => by
        obtain ⟨writing,ordered,promised⟩ := holds.early (own.trans notYet)
        exact ⟨writing,ordered,fun a addition => call ▸ promised t there a addition⟩) with
      ⟨same,unmoved,promised⟩ | ⟨notYet,ok,now,does,tiered,short⟩
    · refine ⟨consistent,failed,accepted,roles,?_,le_trans unmoved.writing holds.alone,unmoved.tiered,fun notYet => ?_⟩
      · rw [effected_set there,effected_set there,if_pos rfl,if_neg apart.symm,same,← own,unmoved.status]
        exact holds.serial
      · rw [effected_set there,if_pos rfl,same,← own] at notYet
        obtain ⟨writing,ordered,_⟩ := holds.early notYet
        have idle : bm'.writingPacks = [] :=
          List.eq_nil_of_length_eq_zero (Nat.le_zero.mp (le_of_le_of_eq unmoved.writing (by simp [writing])))
        refine ⟨idle,(unmoved.early writing ordered).1,fun u found a addition => ?_⟩
        rw [itself] at found
        cases Option.some.inj found
        exact call ▸ promised a addition
    · refine ⟨consistent,failed,accepted,roles,?_,short,tiered,fun never => ?_⟩
      · have before := holds.serial
        rw [own,notYet] at before
        rw [effected_set there,effected_set there,if_pos rfl,if_neg apart.symm,now]
        exact before.rewrites (call ▸ does)
      · rw [effected_set there,if_pos rfl,now] at never
        contradiction
  · by_cases isDelete : k = j
    · -- the deletion
      subst isDelete
      have call := (holds.cast k t there).2.1 rfl
      have here : t.place = .delete := by
        rcases sound.delete call with here | finished
        · exact here
        · rw [finished.stays] at ran
          contradiction
      obtain ⟨once,undisturbed⟩ := deletes call
      have shape : ((s.bm.DeleteContent env c).1,Place.returned (s.bm.DeleteContent env c).2) = (bm',place) := by
        simpa [Thread.run,here,call] using ran
      simp only [Prod.mk.injEq] at shape
      have done : s.bm.DeleteContent env c = (bm',(s.bm.DeleteContent env c).2) := Prod.ext shape.1 rfl
      have fresh := FreshNames.of_possible possible
      obtain ⟨does,tiered,writing⟩ := DeleteContent_does wf fresh noFailure.2.2 done holds.tiered once
      refine ⟨consistent,failed,accepted,roles,?_,by rw [writing]; exact holds.alone,tiered,fun notYet => ?_⟩
      · have before := holds.serial
        have own : s.effected k = none := by simp [Machine.effected,there,here,Place.effected]
        rw [own] at before
        rw [effected_set there,effected_set there,if_neg apart,if_pos rfl,← shape.2]
        exact before.deletes does
      · rw [effected_set there,if_neg apart] at notYet
        obtain ⟨idle,ordered,promised⟩ := holds.early notYet
        refine ⟨writing.trans idle,fun d => ?_,fun u found a addition => ?_⟩
        · have watermark : bm'.deletionWatermark = s.bm.deletionWatermark := (effect.settings wf possible).1
          rw [watermark]
          exact DeleteContent_ordered wf fresh done idle ordered
        · rw [others apart] at found
          have before := promised u found a addition
          by_cases finds : FindsLive s.bm c
          · exact absurd before.contentID (undisturbed finds u (List.mem_of_getElem? found) a addition)
          · have same := DeleteContent_of_nothing_live finds env
            rw [shape.1] at same
            exact same ▸ before
    · -- a flush
      have call : t.call = .Flush := by
        rcases (holds.cast k t there).2.2 isRewrite isDelete with flush | finished
        · exact flush
        · rw [finished.stays] at ran
          contradiction
      rcases effect.unmoved_or wf noFailure holds.failed (holds.accepted t member) holds.alone holds.tiered kept
        (by simp [call,Call.writes]) with unmoved | ⟨a,x,moved,addition,_⟩ | ⟨d,ok,other,_⟩
      · refine ⟨consistent,failed,accepted,roles,?_,le_trans unmoved.writing holds.alone,unmoved.tiered,fun notYet => ?_⟩
        · rw [effected_set there,effected_set there,if_neg (Ne.symm isRewrite),if_neg (Ne.symm isDelete),unmoved.status]
          exact holds.serial
        · rw [effected_set there,if_neg (Ne.symm isRewrite)] at notYet
          obtain ⟨writing,ordered,promised⟩ := holds.early notYet
          have idle : bm'.writingPacks = [] :=
            List.eq_nil_of_length_eq_zero (Nat.le_zero.mp (le_of_le_of_eq unmoved.writing (by simp [writing])))
          refine ⟨idle,(unmoved.early writing ordered).1,fun u found a addition => ?_⟩
          rw [others (Ne.symm isRewrite)] at found
          exact (promised u found a addition).unmoved unmoved writing ordered
      · rw [sound.flush call] at addition
        contradiction
      · simp [call] at other

end Race

section Guarantee

/-- A content is rewritten, and then deleted. -/
def rewriteThenDelete : List Label :=
  [.begin (.RewriteContent ⟨0,[1]⟩ roomy),.run 1 (clock 14 [[112,13]]),.run 1 (clock 15 [[112,13]]),
    .run 1 (clock 16 [[112,13]]),.begin (.DeleteContent ⟨0,[1]⟩),.run 2 (clock 17 [[112,13]])]

/-- A content is deleted, and then rewritten. -/
def deleteThenRewrite : List Label :=
  [.begin (.RewriteContent ⟨0,[1]⟩ roomy),.begin (.DeleteContent ⟨0,[1]⟩),.run 2 (clock 14 [[112,13]]),
    .run 1 (clock 15 [[112,13]])]

/-- A content is deleted after a rewrite has read it and before it publishes it. -/
def deleteDuringRewrite : List Label :=
  [.begin (.RewriteContent ⟨0,[1]⟩ roomy),.run 1 (clock 14 [[112,13]]),.begin (.DeleteContent ⟨0,[1]⟩),
    .run 2 (clock 15 [[112,13]]),.run 1 (clock 16 [[112,13]]),.run 1 (clock 17 [[112,13]])]

end Guarantee

end Vbe.Content
