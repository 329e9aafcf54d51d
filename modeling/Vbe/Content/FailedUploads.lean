import Vbe.Content.ContentBytes
import Vbe.Content.FlushGuarantee
import Vbe.Content.Resolution
import Mathlib.Data.List.Dedup

/-! Which written contents are found while uploads fail. Lookups, deletions and
iterations do not consult failed packs, so a content is found as long as no pack that
holds it is refused. -/
namespace Vbe.Content
open Vbe.Index WriteManager Vbe.Library.Runs

section OnTop

/-- A lookup finds a live entry, no deletion is later, and no failed pack has the
content. -/
structure Layers.OnTop (deletionWatermark : Int) (v : Layers) (e : Info) : Prop where
  top : v.answer deletionWatermark = some e
  live : e.deleted = false
  latest : ∀ d ∈ v.entries, d.deleted = true → d.timestampSeconds ≤ e.timestampSeconds
  failed : v.failed = []

/-- What wins over a live entry that no deletion is later than is live, and no deletion
is later than it either. -/
theorem live_winner {e : Info} (old : Option Info) (x : Info) (one : e = x ∨ old = some e) (live : e.deleted = false)
    (latest : ∀ d, d = x ∨ old = some d → d.deleted = true → d.timestampSeconds ≤ e.timestampSeconds) :
    (Builder.winner old x).deleted = false ∧ e.timestampSeconds ≤ (Builder.winner old x).timestampSeconds := by
  have unbeaten := winner_not_beaten old x e one
  exact ⟨live_of_not_beaten unbeaten live (latest _ (winner_cases old x)),le_of_not_beaten unbeaten⟩

namespace Layers
variable {deletionWatermark : Int} {v w : Layers} {e : Info}

/-- Another entry that is live and as late may take the place of the one on top. -/
theorem OnTop.of_fewer (onTop : v.OnTop deletionWatermark e) (fewer : ∀ y ∈ w.entries, y ∈ v.entries) {y : Info}
    (top : w.answer deletionWatermark = some y)
    (live : y.deleted = false ∧ e.timestampSeconds ≤ y.timestampSeconds) (failed : w.failed = []) :
    w.OnTop deletionWatermark y :=
  ⟨top,live.1,fun d member deleted => le_trans (onTop.latest d (fewer d member) deleted) live.2,failed⟩

theorem OnTop.move (onTop : v.OnTop deletionWatermark e) (writing : v.writing = []) (move : Move False v w) :
    (∃ y, w.OnTop deletionWatermark y) ∧ w.writing = [] := by
  have top := onTop.top
  have fewer := move.fewer
  rw [answer_uncommitted writing] at top
  cases move with
  | finished x pending =>
    have same : e = x := by simpa [pending] using top.symm
    have live := live_winner v.built x (Or.inl same) onTop.live fun d one => onTop.latest d (by
      rcases one with rfl | built <;> simp [entries, *])
    exact ⟨⟨_,onTop.of_fewer fewer (by simp [answer_uncommitted,writing]) live onTop.failed⟩,writing⟩
  | finishFailed x fails => exact fails.elim
  | retried before x after split => simp [onTop.failed] at split
  | retryFailed before x after fails => exact fails.elim
  | committed x built =>
    rcases Option.eq_none_or_eq_some v.pending with pending | ⟨p,pending⟩
    case inr =>
      have same : e = p := by simpa [pending] using top.symm
      refine ⟨⟨e,onTop.of_fewer fewer ?_ ⟨onTop.live,le_refl _⟩ onTop.failed⟩,writing⟩
      simp [answer_uncommitted,writing,pending,same]
    case inl =>
      have same : e = x := by simpa [pending,built] using top.symm
      have live := live_winner v.committed x (Or.inl same) onTop.live fun d one => onTop.latest d (by
        rcases one with rfl | committed <;> simp [entries, *])
      refine ⟨⟨_,onTop.of_fewer fewer ?_ live onTop.failed⟩,writing⟩
      simp [answer_uncommitted,writing,pending,visible_some,live.1]

theorem OnTop.moves (onTop : v.OnTop deletionWatermark e) (writing : v.writing = []) (moves : Moves False v w) :
    (∃ y, w.OnTop deletionWatermark y) ∧ w.writing = [] := by
  induction moves with
  | refl => exact ⟨⟨e,onTop⟩,writing⟩
  | tail _ move ih =>
    obtain ⟨⟨y,onTop⟩,writing⟩ := ih
    exact onTop.move writing move

theorem OnTop.processed (onTop : v.OnTop deletionWatermark e) (alone : v.writing.length ≤ 1)
    (processed : Processed False v w) : ∃ y, w.OnTop deletionWatermark y := by
  cases processed with
  | unaffected => exact ⟨e,onTop⟩
  | failed before x after fails => exact fails.elim
  | indexed before x after writing =>
    have ends : before = [] ∧ after = [] := by
      rw [writing] at alone
      simp only [List.length_append,List.length_cons] at alone
      exact ⟨List.eq_nil_of_length_eq_zero (by omega),List.eq_nil_of_length_eq_zero (by omega)⟩
    obtain ⟨rfl,rfl⟩ := ends
    have fewer : ∀ y ∈ ({v with writing := [] ++ [], built := some (Builder.winner v.built x)} : Layers).entries,
        y ∈ v.entries := by
      intro y member
      have winner := winner_cases v.built x
      simp only [entries,writing,Option.toList_some,List.mem_append,List.mem_cons,List.not_mem_nil,
        Option.mem_toList] at member ⊢
      rcases member with pending | none | failed | (rfl | none) | committed <;> tauto
    rcases Option.eq_none_or_eq_some v.pending with pending | ⟨p,pending⟩
    case inr =>
      have same : e = p := by simpa [answer,seen,pending] using onTop.top.symm
      refine ⟨e,onTop.of_fewer fewer ?_ ⟨onTop.live,le_refl _⟩ onTop.failed⟩
      simp [answer,seen,pending,same]
    case inl =>
      have same : e = x := by simpa [answer,seen,pending,writing] using onTop.top.symm
      have live := live_winner v.built x (Or.inl same) onTop.live fun d one => onTop.latest d (by
        rcases one with rfl | built <;> simp [entries, *])
      refine ⟨_,onTop.of_fewer fewer ?_ live onTop.failed⟩
      simp [answer,seen,pending]

theorem OnTop.startWriting (onTop : v.OnTop deletionWatermark e) (writing : v.writing = []) :
    v.startWriting.OnTop deletionWatermark e := by
  refine ⟨?_,onTop.live,fun d member => onTop.latest d ?_,onTop.failed⟩
  · rw [answer,seen_startWriting writing]
    exact onTop.top
  · simp only [entries,Layers.startWriting,Option.toList_none,List.mem_append,List.not_mem_nil] at member ⊢
    tauto

end Layers

end OnTop

section Found
variable {codec : Codec} {env : Env} {bm bm1 bm' : WriteManager} {t : Thread} {place : Place} {c : ID}

/-- The content is found, live, and will be. -/
def FoundLive (bm : WriteManager) (c : ID) : Prop := ∃ e, (bm.layers c).OnTop bm.deletionWatermark e

/-- A found entry that no deletion is later than, once no pack has failed. -/
theorem FoundSafely.found (safely : FoundSafely bm c) (failed : bm.failedPacks = []) : FoundLive bm c := by
  obtain ⟨e,there,live,latest⟩ := safely
  rw [ContentInfo_eq] at there
  exact ⟨e,there,live,latest,by simp [WriteManager.layers,failed]⟩

theorem FoundLive.locked (found : FoundLive bm c) (wf : bm.WellFormed) (writing : bm.writingPacks = [])
    (accepted : ∀ pp ∈ bm.packs, pp.currentPackItems.get? c ≠ none → (env.upload pp.packBlobID).stored = true)
    (steps : LockedSteps env bm bm1) : FoundLive bm1 c := by
  obtain ⟨e,onTop⟩ := found
  have moves : Layers.Moves False (bm.layers c) (bm1.layers c) :=
    steps.layers wf c fun pp member holds refused => by simp [accepted pp member holds] at refused
  unfold FoundLive
  rw [(steps.surroundings wf).deletionWatermark]
  exact (onTop.moves (by simp [WriteManager.layers,writing]) moves).1

theorem Published.found_other {x : Info} {moved : Bool} (published : Published bm bm' x moved)
    (writing : bm.writingPacks = []) (other : c ≠ x.contentID) (found : FoundLive bm c) : FoundLive bm' c := by
  obtain ⟨e,onTop⟩ := found
  unfold FoundLive
  rw [published.layers c,if_neg other,published.same.deletionWatermark]
  split
  · exact ⟨e,onTop.startWriting (by simp [WriteManager.layers,writing])⟩
  · exact ⟨e,onTop⟩

theorem Published.found_self {x : Info} {moved : Bool} (published : Published bm bm' x moved)
    (writing : bm.writingPacks = []) (failed : bm.failedPacks = []) (live : x.deleted = false)
    (stamped : StampedAfterDeletions bm x.contentID x.timestampSeconds) : FoundLive bm' x.contentID := by
  have onTop : ((bm.layers x.contentID).publish (some x)).OnTop bm.deletionWatermark x := by
    refine ⟨by simp [Layers.answer,Layers.seen,Layers.publish],live,fun d member deleted => ?_,
      by simp [Layers.publish,WriteManager.layers,failed]⟩
    have either : d = x ∨ d ∈ ((bm.layers x.contentID).publish none).entries := by
      simpa [Layers.entries,Layers.publish] using member
    rcases either with rfl | other
    · exact le_refl _
    · exact stamped d other deleted
  unfold FoundLive
  rw [published.layers,if_pos rfl,published.same.deletionWatermark]
  split
  · exact ⟨x,onTop.startWriting (by simp [Layers.publish,WriteManager.layers,writing])⟩
  · exact ⟨x,onTop⟩

/-- A pack being written that holds the content has not been refused. -/
def Place.Kept (c : ID) (writing : List PendingPackInfo) : Place → Prop
  | .processResult _ _ false => ∀ pp ∈ writing, pp.currentPackItems.get? c = none
  | _ => True

/-- Between its retries and its publication a write sees no failed pack. -/
def Place.Retried (failed : List PendingPackInfo) : Place → Prop
  | .lookup _ => failed = []
  | .checkFlush _ => failed = []
  | .flush (some _) => failed = []
  | .flushWait (some _) => failed = []
  | .publish _ => failed = []
  | _ => True

/-- A `WriteContent` that has entered its content, whose pack has not been refused. -/
def Thread.Entering (codec : Codec) (c : ID) (t : Thread) : Prop :=
  t.call.writes codec = some c ∧
    match t.place with
    | .upload _ _ => True
    | .processResult _ _ true => True
    | _ => False

theorem FoundLive.deleted (found : FoundLive bm c) (wf : bm.WellFormed) (fresh : FreshNames env bm) {d : ID} {ok : Bool}
    (done : bm.DeleteContent env d = (bm',ok)) (other : c ≠ d) : FoundLive bm' c := by
  rcases DeleteContent_cases wf fresh done with same | ⟨x,republished⟩
  · exact same ▸ found
  · unfold FoundLive
    rw [republished.layers c,if_neg other,republished.same.deletionWatermark]
    exact found

/-- The step of a write at its publication. -/
theorem Published.found {a : Addition} {x : Info} {moved : Bool} (published : Published bm1 bm' x moved)
    (wf : bm.WellFormed) (steps : LockedSteps env bm bm1) (pending : bm1.pendingPacks = bm.pendingPacks)
    (failed : bm1.failedPacks = []) (writing : bm.writingPacks = []) (entry : EntryFor codec env bm1 a x bm')
    (writes : t.call.writes codec = some a.contentID) (adds : t.call.Adds codec a)
    (standing : t.place = .publish a ∧ lostRace bm a = false ∨ t.place = .publishWait a)
    (safe : SafeWrite env bm a.contentID t.place) : FoundLive bm' a.contentID := by
  have stamped : StampedAfterDeletions bm a.contentID (contentWriteTime env a.previousWriteTime) := by
    rcases standing with ⟨here,first⟩ | here
    · simpa [SafeWrite,here,first] using safe
    · simpa [SafeWrite,here] using safe
  rw [← entry.contentID]
  refine published.found_self ((steps.surroundings wf).writing.trans writing) failed
    (entry.deleted.trans (adds.content_of_writes writes).2) ?_
  rw [entry.contentID,entry.time]
  exact stamped.retried wf steps pending

/-- A content that is found stays found while no pack that holds it is refused and
nobody deletes it. -/
theorem Effect.keepsFound (effect : Effect codec env bm t bm' place) (wf : bm.WellFormed) (possible : env.Possible bm)
    (aligned : t.place.Aligned bm.writingPacks) (sound : t.Sound codec) (plain : t.call.plain = true)
    (notDeleted : t.call ≠ .DeleteContent c) (safe : t.call.writes codec = some c → SafeWrite env bm c t.place)
    (accepted : ∀ pp ∈ bm.packs, pp.currentPackItems.get? c ≠ none → (env.upload pp.packBlobID).stored = true)
    (kept : t.place.Kept c bm.writingPacks) (found : FoundLive bm c) : FoundLive bm' c := by
  have locked {bm1 : WriteManager} (steps : LockedSteps env bm bm1) (writing : bm.writingPacks = []) :
      FoundLive bm1 c := found.locked wf writing accepted steps
  have publishing {a : Addition} {bm1 : WriteManager} {x : Info} {moved : Bool}
      (standing : t.place = .publish a ∧ lostRace bm a = false ∨ t.place = .publishWait a)
      (steps : LockedSteps env bm bm1) (pending : bm1.pendingPacks = bm.pendingPacks) (failed : bm1.failedPacks = [])
      (entry : EntryFor codec env bm1 a x bm') (published : Published bm1 bm' x moved) : FoundLive bm' c := by
    have adds : t.call.Adds codec a := by
      rcases standing with ⟨here,_⟩ | here <;> simpa only [Thread.Sound,here] using sound
    have writing : bm.writingPacks = [] := by
      refine aligned.of_fallible ?_
      rcases standing with ⟨here,_⟩ | here <;> rw [here] <;> rfl
    have writes := adds.writes plain
    by_cases same : c = a.contentID
    · subst same
      exact published.found wf steps pending failed writing entry writes adds standing (safe writes)
    · exact published.found_other ((steps.surroundings wf).writing.trans writing) (entry.contentID ▸ same)
        (locked steps writing)
  have processed {bm1 : WriteManager} (alone : bm.writingPacks.length ≤ 1)
      (same : bm1.deletionWatermark = bm.deletionWatermark)
      (processed : Layers.Processed False (bm.layers c) (bm1.layers c)) : FoundLive bm1 c := by
    obtain ⟨e,onTop⟩ := found
    unfold FoundLive
    rw [same]
    refine onTop.processed (le_trans ?_ alone) processed
    exact List.length_filterMap_le _ _
  have single {d : ID} {name : BlobID} {stored : Bool} (here : t.place = .processResult d name stored) :
      bm.writingPacks.length ≤ 1 := by
    simp only [Place.Aligned,here] at aligned
    obtain ⟨qq,alone,_⟩ := aligned
    simp [alone]
  cases effect with
  | failed bm' steps fallible => exact locked steps (aligned.of_fallible fallible)
  | retried bm' d steps _ here => exact locked steps (aligned.of_fallible (by rw [here]; rfl))
  | flushWaits next bm' here steps => exact locked steps (aligned.of_fallible (by rw [here]; rfl))
  | flushed next bm1 bm' _ idle first second => exact locked (Relation.ReflTransGen.trans first second) idle
  | published a bm1 bm' x standing steps pending failed entry published =>
    exact publishing standing steps pending failed entry published
  | publishedFull a bm1 bm' x pp standing steps pending failed entry published =>
    exact publishing standing steps pending failed entry published
  | uploaded d before pp after pp' blobs stored _ split prepared =>
    unfold FoundLive
    rw [uploaded_layers split prepared blobs c]
    exact found
  | indexed d before pp after built here split indexed =>
    exact processed (single here) rfl ((processed_layers split c False).1 built indexed)
  | notStored d before pp after here split =>
    refine processed (single here) rfl ((processed_layers split c False).2 fun holds => holds ?_)
    simp only [Place.Kept,here] at kept
    exact kept pp (by simp [split])
  | deleted d bm' ok call _ done =>
    exact found.deleted wf (FreshNames.of_possible possible) done fun same => notDeleted (same ▸ call)
  | _ => exact found

/-- A write that returns success, or goes on to upload its pack, leaves its content
found. -/
theorem Effect.newlyFound (effect : Effect codec env bm t bm' place) (wf : bm.WellFormed)
    (aligned : t.place.Aligned bm.writingPacks) (sound : t.Sound codec) (writes : t.call.writes codec = some c)
    (safe : SafeWrite env bm c t.place) (retried : t.place.Retried bm.failedPacks)
    (before : t.Entering codec c → FoundLive bm c)
    (done : place = .returned true ∨ ({t with place := place} : Thread).Entering codec c) : FoundLive bm' c := by
  obtain ⟨data,idPrefix,comp,mp,call,_⟩ := Call.writes_cases writes
  have publishing {a : Addition} {bm1 : WriteManager} {x : Info} {moved : Bool}
      (standing : t.place = .publish a ∧ lostRace bm a = false ∨ t.place = .publishWait a)
      (steps : LockedSteps env bm bm1) (pending : bm1.pendingPacks = bm.pendingPacks) (failed : bm1.failedPacks = [])
      (entry : EntryFor codec env bm1 a x bm') (published : Published bm1 bm' x moved) : FoundLive bm' c := by
    have adds : t.call.Adds codec a := by
      rcases standing with ⟨here,_⟩ | here <;> simpa only [Thread.Sound,here] using sound
    have writing : bm.writingPacks = [] := by
      refine aligned.of_fallible ?_
      rcases standing with ⟨here,_⟩ | here <;> rw [here] <;> rfl
    have own := (adds.content_of_writes writes).1
    subst own
    exact published.found wf steps pending failed writing entry writes adds standing safe
  cases effect with
  | present d bi here found live =>
    simp only [Thread.Sound,here] at sound
    cases Option.some.inj (sound.symm.trans writes)
    simp only [SafeWrite,here] at safe
    simp only [Place.Retried,here] at retried
    rcases safe with gone | safely
    · simp [gone bi found] at live
    · exact safely.found retried
  | lost a bi here early found =>
    simp only [Thread.Sound,here] at sound
    have own := (sound.content_of_writes writes).1
    subst own
    rw [here,SafeWrite,if_pos (lostRace_iff.mpr ⟨early,by simp [found]⟩)] at safe
    simp only [Place.Retried,here] at retried
    exact safe.found retried
  | published a bm1 bm' x standing steps pending failed entry published =>
    exact publishing standing steps pending failed entry published
  | publishedFull a bm1 bm' x pp standing steps pending failed entry published =>
    exact publishing standing steps pending failed entry published
  | uploaded d before' pp after pp' blobs stored here split prepared =>
    unfold FoundLive
    rw [uploaded_layers split prepared blobs c]
    exact before ⟨writes,by simp [here]⟩
  | indexed d before' pp after built here split indexed =>
    obtain ⟨e,onTop⟩ := before ⟨writes,by simp [here]⟩
    simp only [Place.Aligned,here] at aligned
    obtain ⟨qq,alone,_⟩ := aligned
    refine onTop.processed ?_ ((processed_layers split c False).1 built indexed)
    simp only [WriteManager.layers,alone]
    exact List.length_filterMap_le _ _
  | notDeleted d mp bi other => simp [call] at other
  | deleted d bm' ok other => simp [call] at other
  | flushed next bm1 bm' standing =>
    cases next with
    | none => rcases standing with ⟨here,_⟩ | ⟨here,_⟩ <;> simp [Thread.Sound,here,call] at sound
    | some a => simp [Place.afterFlush,Thread.Entering] at done
  | _ => simp [Thread.Entering] at done

/-- Uploads that hold the content are accepted, so what is refused does not hold it. -/
theorem Effect.kept (effect : Effect codec env bm t bm' place) (aligned : t.place.Aligned bm.writingPacks)
    (accepted : ∀ pp ∈ bm.packs, pp.currentPackItems.get? c ≠ none → (env.upload pp.packBlobID).stored = true) :
    place.Kept c bm'.writingPacks := by
  cases effect with
  | uploaded d before pp after pp' blobs stored here split prepared outcome =>
    simp only [Place.Aligned,here] at aligned
    obtain ⟨qq,alone,_⟩ := aligned
    obtain ⟨rfl,rfl,rfl⟩ := alone_of_split alone split
    rcases outcome with ⟨rfl,_⟩ | ⟨rfl,refused,_⟩
    · trivial
    · intro qq member
      rw [List.mem_singleton.mp member,prepared.items]
      by_contra holds
      simp [accepted pp (by simp [WriteManager.packs,split]) holds] at refused
  | flushed next bm1 bm' => cases next <;> trivial
  | _ => trivial

theorem Effect.staysRetried (effect : Effect codec env bm t bm' place) (aligned : t.place.Aligned bm.writingPacks)
    (plain : t.call.plain = true) (retried : t.place.Retried bm.failedPacks) : place.Retried bm'.failedPacks := by
  cases effect with
  | retried bm' d steps emptied => exact emptied
  | read a reads =>
    cases reads with
    | written _ _ _ _ _ here => simpa only [Place.Retried,here] using retried
    | rewritten _ _ call => simp [call,Call.plain] at plain
    | undeleted _ _ call => simp [call,Call.plain] at plain
  | due a here => simpa only [Place.Retried,here] using retried
  | notDue a here => simpa only [Place.Retried,here] using retried
  | flushWaits next bm' here steps busy =>
    have idle : bm.writingPacks = [] := aligned.of_fallible (by rw [here]; rfl)
    exact absurd idle busy
  | flushed next bm1 bm' standing _ _ _ flushed =>
    cases next with
    | none => trivial
    | some a =>
      refine flushed.failed.trans ?_
      rcases standing with ⟨_,failed⟩ | ⟨here,rfl⟩
      · exact failed
      · simpa only [Place.Retried,here] using retried
  | _ => trivial

end Found

section Iteration
variable {bm : WriteManager} {c : ID} {e : Info}

/-- At most one pending pack has an entry for a content. -/
theorem WriteManager.WellFormed.pending_entries (wf : bm.WellFormed) (c : ID) :
    entriesOf bm.pendingPacks c = (bm.layers c).pending.toList := by
  unfold WriteManager.layers
  cases none : entriesOf bm.pendingPacks c with
  | nil => rfl
  | cons i rest =>
    have member : i ∈ entriesOf bm.pendingPacks c := by simp [none]
    obtain ⟨pp,inside,found⟩ := List.mem_filterMap.mp member
    obtain ⟨before,after,split⟩ := List.append_of_mem inside
    have alone := wf.pending_alone split (wf.placed pp (by simp [packs,inside]) c i found)
    rw [entriesOf_append,List.append_eq_nil_iff] at alone
    rw [split,entriesOf_append,entriesOf_cons,alone.1,alone.2,found] at none
    simpa using none.symm

/-- Of entries among which a live one is no earlier than any deletion, a live one wins. -/
theorem foldl_winner_live {entries : List Info} {old : Option Info} (member : e ∈ old.toList ++ entries)
    (live : e.deleted = false)
    (latest : ∀ d ∈ old.toList ++ entries, d.deleted = true → d.timestampSeconds ≤ e.timestampSeconds) :
    ∃ w, entries.foldl (fun old i => some (Builder.winner old i)) old = some w ∧ w.deleted = false := by
  induction entries generalizing old e with
  | nil => exact ⟨e,by simpa using member,live⟩
  | cons x entries ih =>
    have among {d : Info} (inside : d ∈ (some (Builder.winner old x)).toList ++ entries) : d ∈ old.toList ++ x :: entries := by
      have winner := winner_cases old x
      simp only [Option.toList_some,List.mem_append,List.mem_cons,List.not_mem_nil,Option.mem_toList] at inside ⊢
      rcases inside with (rfl | none) | later <;> tauto
    have later : e = x ∨ old = some e ∨ e ∈ entries := by
      simp only [List.mem_append,List.mem_cons,Option.mem_toList] at member
      tauto
    by_cases one : e = x ∨ old = some e
    · have wins := live_winner old x one live fun d two => latest d (by
        rcases two with rfl | there <;> simp [*])
      exact ih (by simp) wins.1 fun d inside deleted => le_trans (latest d (among inside) deleted) wins.2
    · have rest : e ∈ entries := by tauto
      exact ih (by simp [rest]) live fun d inside => latest d (among inside)

/-- An iteration lists a content that is found, whatever else it lists. -/
theorem FoundLive.listed (found : FoundLive bm c) (wf : bm.WellFormed) (includeDeleted : Bool) {r : IDRange}
    (contains : r.Contains c = true) :
    ∃ i ∈ bm.IterateContents includeDeleted r, i.contentID = c ∧ i.deleted = false := by
  obtain ⟨e,onTop⟩ := found
  have snapshot : bm.snapshotUncommittedItems.get? c =
      ((bm.layers c).pending.toList ++ (bm.layers c).writing).foldl (fun old i => some (Builder.winner old i))
        (bm.layers c).built := by
    rw [snapshotUncommittedItems,get?_addPacks,get?_addPacks,wf.pending_entries,List.foldl_append]
    rfl
  have top : ((bm.layers c).seen bm.deletionWatermark).head? = some e := onTop.top
  unfold Layers.seen at top
  by_cases overlaid : (bm.layers c).built.toList ++ ((bm.layers c).pending.toList ++ (bm.layers c).writing) = []
  · simp only [List.append_eq_nil_iff,Option.toList_eq_nil_iff] at overlaid
    obtain ⟨built,pending,writing⟩ := overlaid
    rw [built,pending,writing] at snapshot top
    have committed : bm.getContent c = some e := by
      rw [getContent_eq]
      simpa using top
    have merged := getContent_eq bm c
    rw [committed] at merged
    obtain ⟨b,member,entry⟩ := mergedInfo_mem (Layers.mem_visible merged.symm).1
    have own := Builder.get?_contentID entry
    refine ⟨e,List.mem_append.mpr (Or.inr (List.mem_filter.mpr ⟨?_,?_⟩)),own,onTop.live⟩
    · refine List.mem_filterMap.mpr ⟨c,List.mem_filter.mpr ⟨List.mem_dedup.mpr ?_,contains⟩,committed⟩
      refine List.mem_map.mpr ⟨e,List.mem_flatMap.mpr ⟨b,member,Builder.mem_infos.mpr ?_⟩,own⟩
      rw [own]
      exact entry
    · simp [own,snapshot,onTop.live,contains]
  · have member : e ∈ (bm.layers c).built.toList ++ ((bm.layers c).pending.toList ++ (bm.layers c).writing) := by
      cases pending : (bm.layers c).pending <;> cases writing : (bm.layers c).writing <;>
        cases built : (bm.layers c).built <;> simp_all
    obtain ⟨w,wins,live⟩ := foldl_winner_live member onTop.live fun d inside => onTop.latest d (by
      simp only [Layers.entries,List.mem_append] at inside ⊢
      tauto)
    rw [wins] at snapshot
    have own := Builder.get?_contentID snapshot
    refine ⟨w,List.mem_append.mpr (Or.inl (List.mem_filter.mpr ⟨?_,?_⟩)),own,live⟩
    · rw [Builder.mem_infos,own]
      exact snapshot
    · simp [own,snapshot,live,contains]

end Iteration

section Invariant
variable {codec : Codec} {c : ID}

/-- Uploads of packs that hold the content, once its write has been acknowledged, are
accepted, and its writes leave an entry that no deletion is later than. -/
def UploadCondition (codec : Codec) (c : ID) (s : Machine) : Label → Prop
  | .run i env =>
    (c ∈ s.acknowledged → ∀ pp ∈ s.bm.packs, pp.currentPackItems.get? c ≠ none →
      (env.upload pp.packBlobID).stored = true) ∧
    ∀ t ∈ s.threads[i]?, t.call.writes codec = some c → SafeWrite env s.bm c t.place
  | _ => True

instance (codec : Codec) (c : ID) (s : Machine) : ∀ l, Decidable (UploadCondition codec c s l)
  | .begin _ => .isTrue trivial
  | .refresh _ => .isTrue trivial
  | .run _ _ => inferInstanceAs (Decidable (_ ∧ _))

structure FoundInvariant (codec : Codec) (c : ID) (s : Machine) : Prop where
  consistent : s.Consistent codec
  calm : s.Calm
  plain : ∀ t ∈ s.threads, t.call.plain = true
  retried : ∀ t ∈ s.threads, t.place.Retried s.bm.failedPacks
  kept : c ∈ s.acknowledged → ∀ t ∈ s.threads, t.place.Kept c s.bm.writingPacks
  found : (c ∈ s.acknowledged ∨ ∃ t ∈ s.threads, t.Entering codec c) → FoundLive s.bm c

theorem FoundInvariant.step {s s' : Machine} {l : Label} (holds : FoundInvariant codec c s) (plain : l.plain = true)
    (sequential : Sequential s l) (condition : UploadCondition codec c s l) (taken : s.step codec l = some s') :
    FoundInvariant codec c s' := by
  have consistent := holds.consistent.step taken
  have calm := holds.calm.step holds.consistent sequential taken
  rcases holds.calm.step_cases sequential taken with
    ⟨call,rfl,_,rfl⟩ | ⟨done,t,env,bm',place,rfl,threads,finished,aligned,possible,ran,rfl⟩ | ⟨loaded,rfl,_⟩
  · have either {u : Thread} (member : u ∈ s.threads ++ [call.start]) : u ∈ s.threads ∨ u = call.start := by
      simpa using member
    refine ⟨consistent,calm,fun u member => ?_,fun u member => ?_,fun acknowledged u member => ?_,?_⟩
    · rcases either member with old | rfl
      · exact holds.plain u old
      · cases call <;> exact plain
    · rcases either member with old | rfl
      · exact holds.retried u old
      · cases call <;> trivial
    · rcases either member with old | rfl
      · exact holds.kept acknowledged u old
      · cases call <;> trivial
    · refine fun entering => holds.found (entering.imp id fun ⟨u,member,inside⟩ => ?_)
      rcases either member with old | rfl
      · exact ⟨u,old,inside⟩
      · cases call <;> exact absurd inside.2 id
  · have wf := holds.consistent.wellFormed
    have member : t ∈ s.threads := by simp [threads]
    have effect := Thread.run_effect wf possible ran
    have sound := holds.consistent.sound t member
    have safe := condition.2 t (by simp [threads])
    have written (writes : t.call.writes codec = some c) := effect.newlyFound wf aligned sound writes (safe writes)
      (holds.retried t member) fun entering => holds.found (Or.inr ⟨t,member,entering⟩)
    have either {u : Thread} (member : u ∈ done ++ [({t with place := place} : Thread)]) :
        (∃ ok, u.place = .returned ok) ∨ u = {t with place := place} := by
      rcases List.mem_append.mp member with old | new
      · exact Or.inl (finished u old)
      · exact Or.inr (List.mem_singleton.mp new)
    refine ⟨consistent,calm,fun u inside => ?_,fun u inside => ?_,fun acknowledged u inside => ?_,?_⟩
    · rcases List.mem_append.mp inside with old | new
      · exact holds.plain u (by simp [threads,old])
      · rw [List.mem_singleton.mp new]
        exact holds.plain t member
    · rcases either inside with ⟨ok,here⟩ | rfl
      · rw [here]
        trivial
      · exact effect.staysRetried aligned (holds.plain t member) (holds.retried t member)
    · rcases either inside with ⟨ok,here⟩ | rfl
      · rw [here]
        trivial
      · rcases mem_acknowledge acknowledged with ⟨old,_⟩ | ⟨returned,_⟩
        · exact effect.kept aligned (condition.1 old)
        · rw [returned]
          trivial
    · rintro (acknowledged | ⟨u,inside,entering⟩)
      · rcases mem_acknowledge acknowledged with ⟨old,notDeleted⟩ | ⟨returned,writes⟩
        · exact effect.keepsFound wf possible aligned sound (holds.plain t member) notDeleted safe (condition.1 old)
            (holds.kept old t member) (holds.found (Or.inl old))
        · exact written writes (Or.inl returned)
      · rcases either inside with ⟨ok,here⟩ | rfl
        · simp [Thread.Entering,here] at entering
        · exact written entering.1 (Or.inr entering)
  · contradiction

end Invariant

section Guarantee

/-- A lookup finds the content live, and iterations over ranges that it is in list it. -/
def Available (bm : WriteManager) (c : ID) : Prop :=
  (∃ e ∈ bm.ContentInfo c, e.deleted = false) ∧ ∀ includeDeleted r, IDRange.Contains r c = true →
    ∃ i ∈ bm.IterateContents includeDeleted r, i.contentID = c ∧ i.deleted = false

/-- The pack of both contents is accepted. -/
def acceptPack : List Label := fillPack ++ [.run 1 (clock 18 []),.run 1 (clock 19 [])]

/-- The pack of both contents is refused. -/
def refusePack : List Label := fillPack ++ [.run 1 (refusing 18 []),.run 1 (clock 19 [])]

end Guarantee

end Vbe.Content
