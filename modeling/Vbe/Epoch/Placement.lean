import Vbe.Epoch.WriteIndex

/-! Where a write of index blobs leaves them, when all calls to storage succeed. -/
namespace Vbe.Epoch
open Vbe.Index (Bytes BlobID)
open Vbe.IndexBlob.ManagerV0 (Metadata Time)
open Vbe.Library

/-- Calls to storage and to the clock do what they are asked to, and maps are visited in some order. -/
def Succeeds (_ : World) : Op → Option Ending → Prop
  | .PutBlob _ _, some e => ∃ t, e = .writes t
  | .DeleteBlob _, some e => e = .returns
  | .Invalidate, some e => e = .returns
  | .timeFunc, some e => ∃ t, e = .time t
  | .visit keys, some e => ∃ blobIDs, e = .visits blobIDs ∧ blobIDs.Perm keys
  | _, _ => True

/-- How a program that has not been left ends. -/
abbrev Leads {α : Type} (p : Call α) (post : World → α → Prop) (failure : World → WriteIndexError → Prop) (w : World) : Prop :=
  p.Pre act Succeeds (fun w' result => (∀ a, result = some (.ok a) → post w' a) ∧
    ∀ e, result = some (.error e) → failure w' e) w

section Programs
variable {α β : Type} {failure : World → WriteIndexError → Prop} {w : World}

theorem leads_answer {post : World → α → Prop} {a : α} (holds : post w a) : Leads (.answer a) post failure w :=
  ⟨fun _ same => Except.ok.inj (Option.some.inj same) ▸ holds,fun _ => nofun⟩

theorem leads_fail {post : World → α → Prop} {e : WriteIndexError} (holds : failure w e) :
    Leads (.fail e) post failure w :=
  ⟨fun _ => nofun,fun _ same => Except.error.inj (Option.some.inj same) ▸ holds⟩

theorem leads_ask {op : Op} {next : Reply → Call α} {post : World → α → Prop}
    (rest : ∀ e, Succeeds w op (some e) → Leads (next (act w op e).2) post failure (act w op e).1) :
    Leads (.ask op next) post failure w :=
  ⟨fun _ => ⟨fun _ => nofun,fun _ => nofun⟩,rest⟩

theorem leads_bind {p : Call α} {f : α → Call β} {mid : World → α → Prop} {post : World → β → Prop}
    (first : Leads p mid failure w) (rest : ∀ w' a, mid w' a → Leads (f a) post failure w') :
    Leads (p >>= f) post failure w := by
  refine Query.Pre.bind (first.mono ?_)
  intro w' result both
  cases result with
  | none => exact ⟨fun _ => nofun,fun _ => nofun⟩
  | some result =>
    cases result with
    | error e => exact ⟨fun _ => nofun,fun e' same => both.2 e' (by cases same; rfl)⟩
    | ok a => exact rest w' a (both.1 a rfl)

theorem Leads.imp {p : Call α} {post post' : World → α → Prop} {failure' : World → WriteIndexError → Prop}
    (leads : Leads p post failure w) (more : ∀ w' a, post w' a → post' w' a) (worse : ∀ w' e, failure w' e → failure' w' e) :
    Leads p post' failure' w := by
  refine leads.mono ?_
  intro w' result both
  exact ⟨fun a same => more w' a (both.1 a same),fun e same => worse w' e (both.2 e same)⟩

end Programs

/-- A world without some of its blobs. -/
def World.without (w : World) (blobIDs : List BlobID) : World :=
  { w with blobs := fun id => if id ∈ blobIDs then none else w.blobs id }

theorem leads_deleteBlobs (blobIDs : List BlobID) (w : World) :
    Leads (deleteBlobs blobIDs) (fun w' _ => w' = w.without blobIDs) (fun _ _ => False) w := by
  induction blobIDs generalizing w with
  | nil =>
    refine leads_answer ?_
    simp [World.without]
  | cons blobID blobIDs ih =>
    refine leads_ask ?_
    rintro e rfl
    refine (ih _).imp ?_ (fun _ _ impossible => impossible)
    rintro w' _ rfl
    unfold World.without
    congr 1
    funext id
    by_cases same : id = blobID
    · subst same
      simp [act]
    · simp [act,same]

theorem leads_deletePartiallyWrittenShards (blobs : Written) (w : World) :
    Leads (deletePartiallyWrittenShards blobs) (fun w' _ => w' = w.without blobs.keys) (fun _ _ => False) w := by
  refine leads_ask ?_
  rintro e ⟨blobIDs,rfl,perm⟩
  simp only [act,if_pos perm]
  refine (leads_deleteBlobs blobIDs w).imp ?_ (fun _ _ impossible => impossible)
  rintro w' _ rfl
  unfold World.without
  simp only [perm.mem_iff]

section Progress
variable (dataShards : Shards) (start : BlobID → Option Bytes)

/-- The names under which a write puts blobs. -/
def Own (id : BlobID) : Prop := ∃ epoch, ∃ shard ∈ dataShards.values, id = UncompactedEpochBlobPrefix epoch ++ shard.1

/-- Blobs that are as before the write, or are gone. -/
def Untouched (w : World) (id : BlobID) : Prop := w.blobs id = start id ∨ (w.blobs id = none ∧ Own dataShards id)

/-- The blobs of the write that are there are those it knows of, all for one epoch. -/
structure Progress (epoch : Int) (written : Written) (w : World) : Prop where
  mine : ∀ bm ∈ written.values, ∃ shard ∈ dataShards.values,
    bm.BlobID = UncompactedEpochBlobPrefix epoch ++ shard.1 ∧ w.blobs bm.BlobID = some shard.2
  others : ∀ id, id ∉ written.keys → Untouched dataShards start w id

variable {dataShards start} {epoch : Int} {written : Written} {w : World}

theorem mem_keys {id : BlobID} : id ∈ written.keys ↔ (written.get? id).isSome := by
  constructor
  · intro member
    obtain ⟨bm,inside,rfl⟩ := List.mem_map.mp member
    rw [Keyed.mem_values.mp inside]
    rfl
  · intro found
    obtain ⟨bm,known⟩ := Option.isSome_iff_exists.mp found
    have inside := List.mem_of_find?_eq_some known
    exact List.mem_map.mpr ⟨bm,inside,Keyed.get?_key known⟩

theorem mem_keys_set {bm : Metadata} {id : BlobID} : id ∈ Written.keys (written.set bm) ↔ id = bm.BlobID ∨ id ∈ written.keys := by
  rw [mem_keys,mem_keys,Keyed.get?_set]
  split
  next same => simp [same]
  next other => simp [other]

/-- When all that was written has been deleted nothing is left of the write. -/
theorem Progress.deleted (progress : Progress dataShards start epoch written w) (id : BlobID) :
    Untouched dataShards start (w.without written.keys) id := by
  by_cases member : id ∈ written.keys
  · obtain ⟨bm,inside,rfl⟩ := List.mem_map.mp member
    obtain ⟨shard,mem,name,_⟩ := progress.mine bm inside
    right
    exact ⟨by simp [World.without,member],epoch,shard,mem,name⟩
  · rcases progress.others id member with same | gone
    · left
      simpa [World.without,member] using same
    · right
      exact ⟨by simpa [World.without,member] using gone.1,gone.2⟩

theorem progress_empty (clean : ∀ id, Untouched dataShards start w id) (epoch : Int) :
    Progress dataShards start epoch Keyed.empty w :=
  ⟨fun _ member => absurd member List.not_mem_nil,fun id _ => clean id⟩

theorem Progress.of_blobs (progress : Progress dataShards start epoch written w) {w' : World} (same : w'.blobs = w.blobs) :
    Progress dataShards start epoch written w' :=
  ⟨by rw [same]; exact progress.mine,by unfold Untouched; rw [same]; exact progress.others⟩

theorem act_committedState (w : World) (ensureMinTime now : Int) (refreshed : CurrentSnapshot) :
    ∃ w' cs, act w (.committedState ensureMinTime) (.state now refreshed) = (w',.state cs) ∧ w'.blobs = w.blobs ∧
      (w.lastKnownState = none → w'.epochSince = some cs.WriteEpoch) := by
  unfold act
  cases known : w.lastKnownState with
  | none => exact ⟨_,_,rfl,rfl,fun _ => rfl⟩
  | some cs =>
    dsimp only
    split
    next => exact ⟨_,_,rfl,rfl,fun _ => rfl⟩
    next => exact ⟨_,_,rfl,rfl,fun unknown => by contradiction⟩

theorem Progress.put (progress : Progress dataShards start epoch written w) {shard : BlobID × Bytes}
    (member : shard ∈ dataShards.values) (new : written.get? (UncompactedEpochBlobPrefix epoch ++ shard.1) = none)
    (length timestamp : Int) (since : Option Int) :
    Progress dataShards start epoch (written.set ⟨UncompactedEpochBlobPrefix epoch ++ shard.1,length,timestamp⟩)
      { w with blobs := Function.update w.blobs (UncompactedEpochBlobPrefix epoch ++ shard.1) (some shard.2),
               epochSince := since } := by
  constructor
  · intro bm inside
    rcases Keyed.mem_set inside with earlier | rfl
    · obtain ⟨shard',mem,name,there⟩ := progress.mine bm earlier
      refine ⟨shard',mem,name,?_⟩
      dsimp only
      rw [Function.update_of_ne,there]
      intro same
      rw [← same,Keyed.mem_values.mp earlier] at new
      cases new
    · exact ⟨shard,member,rfl,by simp⟩
  · intro id absent
    rw [mem_keys_set,not_or] at absent
    have other : Function.update w.blobs (UncompactedEpochBlobPrefix epoch ++ shard.1) (some shard.2) id = w.blobs id :=
      Function.update_of_ne absent.1 _ _
    rcases progress.others id absent.2 with same | gone
    · left
      exact other.trans same
    · right
      exact ⟨other.trans gone.1,gone.2⟩

/-- The failures of an attempt, after which anything may be left. -/
def Stopped (_ : World) (e : WriteIndexError) : Prop := e ≠ .verySlowIndexWrite

theorem leads_failed {α : Type} {post : World → α → Prop} {w : World} : Leads (.fail .failed) post Stopped w :=
  leads_fail (by unfold Stopped; decide)

theorem leads_writeShards {cs : CurrentSnapshot} {shards : List (BlobID × Bytes)} (own : ∀ shard ∈ shards, shard ∈ dataShards.values)
    (progress : Progress dataShards start cs.WriteEpoch written w) :
    Leads (writeShards cs shards written) (fun w' result => Progress dataShards start cs.WriteEpoch result.1 w' ∧
      (∀ id ∈ written.keys, id ∈ Written.keys result.1) ∧
      (result.2 = false → ∀ shard ∈ shards, UncompactedEpochBlobPrefix cs.WriteEpoch ++ shard.1 ∈ Written.keys result.1))
      Stopped w := by
  induction shards generalizing written w with
  | nil => exact leads_answer ⟨progress,fun _ member => member,fun _ shard member => absurd member List.not_mem_nil⟩
  | cons shard shards ih =>
    obtain ⟨first,later⟩ := List.forall_mem_cons.mp own
    rw [writeShards]
    split
    next known =>
      refine (ih later progress).imp ?_ (fun _ _ stopped => stopped)
      rintro w' result ⟨progress',more,all⟩
      refine ⟨progress',more,fun ended => List.forall_mem_cons.mpr ⟨more _ (mem_keys.mpr known),all ended⟩⟩
    next unknown =>
      have new : written.get? (UncompactedEpochBlobPrefix cs.WriteEpoch ++ shard.1) = none := by simpa using unknown
      refine leads_ask ?_
      rintro e ⟨now,rfl⟩
      simp only [act]
      split
      next => exact leads_answer ⟨progress,fun _ member => member,fun ended => Bool.noConfusion ended⟩
      next =>
        refine leads_ask ?_
        rintro e ⟨timestamp,rfl⟩
        refine (ih later (progress.put first new _ timestamp none)).imp ?_ (fun _ _ stopped => stopped)
        rintro w' result ⟨progress',more,all⟩
        refine ⟨progress',fun id member => more id (mem_keys_set.mpr (.inr member)),fun ended => ?_⟩
        exact List.forall_mem_cons.mpr ⟨more _ (mem_keys_set.mpr (.inl rfl)),all ended⟩

/-- The shards in the order in which the map is visited. -/
theorem mem_visited {blobIDs : List BlobID} (perm : blobIDs.Perm (dataShards.values.map Prod.fst)) (shard : BlobID × Bytes) :
    shard ∈ blobIDs.filterMap dataShards.get? ↔ shard ∈ dataShards.values := by
  rw [List.mem_filterMap]
  constructor
  · rintro ⟨id,_,found⟩
    exact List.mem_of_find?_eq_some found
  · intro member
    exact ⟨shard.1,perm.mem_iff.mpr (List.mem_map_of_mem member),Keyed.mem_values.mp member⟩

def AllWritten (dataShards : Shards) (epoch : Int) (written : Written) : Prop :=
  ∀ shard ∈ dataShards.values, UncompactedEpochBlobPrefix epoch ++ shard.1 ∈ written.keys

theorem leads_writeIndexShards {cs : CurrentSnapshot} (progress : Progress dataShards start cs.WriteEpoch written w) :
    Leads (writeIndexShards dataShards written cs) (fun w' result => Progress dataShards start cs.WriteEpoch result.1 w' ∧
      (result.2 = false → AllWritten dataShards cs.WriteEpoch result.1)) Stopped w := by
  refine leads_ask ?_
  rintro e ⟨blobIDs,rfl,perm⟩
  simp only [act,if_pos perm]
  refine (leads_writeShards (fun shard member => (mem_visited perm shard).mp member) progress).imp ?_ (fun _ _ stopped => stopped)
  rintro w' result ⟨progress',_,all⟩
  exact ⟨progress',fun ended shard member => all ended shard ((mem_visited perm shard).mpr member)⟩

theorem leads_forEpoch (progress : Progress dataShards start epoch written w) (cs : CurrentSnapshot) :
    Leads (forEpoch written epoch cs) (fun w' written' => Progress dataShards start cs.WriteEpoch written' w') Stopped w := by
  unfold forEpoch
  split
  next =>
    have deletes : Leads (deletePartiallyWrittenShards written) (fun w' _ => w' = w.without written.keys) Stopped w :=
      (leads_deletePartiallyWrittenShards written w).imp (fun _ _ same => same) (fun _ _ impossible => impossible.elim)
    refine leads_bind deletes ?_
    rintro w' _ rfl
    exact leads_answer (progress_empty progress.deleted cs.WriteEpoch)
  next same =>
    obtain rfl : cs.WriteEpoch = epoch := not_not.mp same
    exact leads_answer progress

theorem leads_writeAttempts (attempts : Nat) (progress : Progress dataShards start epoch written w) :
    Leads (writeAttempts dataShards attempts written epoch) (fun w' result => Progress dataShards start result.2 result.1 w' ∧
      AllWritten dataShards result.2 result.1 ∧ w'.lastKnownState = none) Stopped w := by
  induction attempts generalizing written epoch w with
  | zero => exact leads_fail (by unfold Stopped; decide)
  | succ attempts ih =>
    refine leads_ask ?_
    intro e _
    cases e with
    | parameters p =>
      refine leads_ask ?_
      intro e _
      cases e with
      | state now refreshed =>
        obtain ⟨w',cs,reply,blobs,_⟩ := act_committedState w ((3 * p.EpochRefreshFrequency).tdiv 4) now refreshed
        simp only [act] at reply ⊢
        rw [reply]
        refine leads_bind (leads_forEpoch (progress.of_blobs blobs) cs) ?_
        intro w'' written' progress'
        refine leads_bind (leads_writeIndexShards progress') ?_
        rintro last ⟨written'',again⟩ ⟨progress'',all⟩
        cases again with
        | true => exact ih progress''
        | false =>
          refine leads_ask ?_
          rintro e rfl
          exact leads_answer ⟨progress''.of_blobs rfl,all rfl,rfl⟩
      | _ => exact leads_failed
    | _ => exact leads_failed

/-- All shards are under one epoch, and nothing else has changed but what is gone. -/
structure Placed (dataShards : Shards) (start : BlobID → Option Bytes) (w : World) (results : List Metadata) (epoch : Int) :
    Prop where
  names : (results.map Metadata.BlobID).Perm
    (dataShards.values.map fun shard => UncompactedEpochBlobPrefix epoch ++ shard.1)
  there : ∀ shard ∈ dataShards.values, w.blobs (UncompactedEpochBlobPrefix epoch ++ shard.1) = some shard.2
  others : ∀ id, id ∉ results.map Metadata.BlobID → Untouched dataShards start w id
  recent : ∃ e, w.epochSince = some e ∧ e ≤ epoch + 1

/-- Nothing is left of a write that was very slow. -/
def Cleaned (dataShards : Shards) (start : BlobID → Option Bytes) (w : World) (e : WriteIndexError) : Prop :=
  e = .verySlowIndexWrite → ∀ id, Untouched dataShards start w id

theorem results_names {blobIDs : List BlobID} (perm : blobIDs.Perm written.keys) :
    (blobIDs.filterMap written.get?).map Metadata.BlobID = blobIDs := by
  have known : ∀ id ∈ blobIDs, ∃ bm, written.get? id = some bm := by
    intro id member
    exact Option.isSome_iff_exists.mp (mem_keys.mp (perm.mem_iff.mp member))
  clear perm
  induction blobIDs with
  | nil => rfl
  | cons id blobIDs ih =>
    obtain ⟨⟨bm,found⟩,later⟩ := List.forall_mem_cons.mp known
    rw [List.filterMap_cons_some found,List.map_cons,ih later,Keyed.get?_key found]

theorem nodup_names (dataShards : Shards) (epoch : Int) :
    (dataShards.values.map fun shard => UncompactedEpochBlobPrefix epoch ++ shard.1).Nodup := by
  have names : (dataShards.values.map fun shard => UncompactedEpochBlobPrefix epoch ++ shard.1) =
      (dataShards.values.map Prod.fst).map (UncompactedEpochBlobPrefix epoch ++ ·) := by
    rw [List.map_map]
    rfl
  rw [names]
  exact dataShards.nodup.map (List.append_right_injective _)

theorem Progress.placed (progress : Progress dataShards start epoch written w) (all : AllWritten dataShards epoch written)
    {blobIDs : List BlobID} (perm : blobIDs.Perm written.keys) {e : Int} (read : w.epochSince = some e) (soon : e ≤ epoch + 1) :
    Placed dataShards start w (blobIDs.filterMap written.get?) epoch := by
  have names := results_names perm
  have keys : written.keys.Perm (dataShards.values.map fun shard => UncompactedEpochBlobPrefix epoch ++ shard.1) := by
    refine (List.perm_ext_iff_of_nodup written.nodup (nodup_names dataShards epoch)).mpr ?_
    intro id
    constructor
    · intro member
      obtain ⟨bm,inside,rfl⟩ := List.mem_map.mp member
      obtain ⟨shard,mem,name,_⟩ := progress.mine bm inside
      exact List.mem_map.mpr ⟨shard,mem,name.symm⟩
    · intro member
      obtain ⟨shard,mem,rfl⟩ := List.mem_map.mp member
      exact all shard mem
  refine ⟨by rw [names]; exact perm.trans keys,?_,?_,e,read,soon⟩
  · intro shard member
    obtain ⟨bm,inside,name⟩ := List.mem_map.mp (all shard member)
    obtain ⟨shard',mem,own,there⟩ := progress.mine bm inside
    have same : shard'.1 = shard.1 := List.append_cancel_left (own.symm.trans name)
    have equal : shard' = shard := by
      have found := Keyed.mem_values.mp mem
      rw [same,Keyed.mem_values.mp member] at found
      exact (Option.some.inj found).symm
    rw [← name,there,equal]
  · intro id absent
    rw [names] at absent
    exact progress.others id fun member => absent (perm.mem_iff.mpr member)

/-- A program whose failures are only logged ends as it does when it does not fail. -/
theorem leads_logged {α : Type} {p : Call α} {post : World → Prop} {w : World}
    (leads : Leads p (fun w' _ => post w') (fun _ _ => False) w) : Leads (logged p) (fun w' _ => post w') (fun _ _ => False) w := by
  induction p generalizing w with
  | answer a => exact leads_answer (leads.1 a rfl)
  | fail e => exact (leads.2 e rfl).elim
  | ask op next ih => exact leads_ask fun e allowed => ih _ (leads.2 e allowed)

theorem leads_finishWrite (progress : Progress dataShards start epoch written w) (all : AllWritten dataShards epoch written)
    (unknown : w.lastKnownState = none) :
    Leads (finishWrite written epoch) (fun w' results => ∃ epoch, Placed dataShards start w' results epoch)
      (Cleaned dataShards start) w := by
  refine leads_ask ?_
  intro e _
  cases e with
  | state now refreshed =>
    obtain ⟨w',cs,reply,blobs,read⟩ := act_committedState w 0 now refreshed
    rw [reply]
    have since := read unknown
    have progress' := progress.of_blobs blobs
    dsimp only
    split
    next =>
      have deletes := leads_logged (leads_deletePartiallyWrittenShards written w')
      refine leads_bind (deletes.imp (fun _ _ same => same) (fun _ _ impossible => impossible.elim)) ?_
      rintro w'' _ rfl
      exact leads_fail fun _ => progress'.deleted
    next soon =>
      refine leads_ask ?_
      rintro e ⟨blobIDs,rfl,perm⟩
      simp only [act,if_pos perm]
      exact leads_answer ⟨epoch,progress'.placed all perm since (by omega)⟩
  | _ => exact leads_fail nofun

end Progress

/-- A write that succeeds has put all shards under one epoch, and is not two epochs late. One that was very slow leaves
nothing. -/
theorem WriteIndex_placed (attempts : Nat) (dataShards : Shards) (w : World) {endings : List Ending}
    (succeeds : (WriteIndex attempts dataShards).Along act Succeeds endings w) {w' : World}
    {result : Except WriteIndexError (List Metadata)}
    (run : (WriteIndex attempts dataShards).steps act endings w = (w',some result)) :
    (∀ results, result = .ok results → ∃ epoch, Placed dataShards w.blobs w' results epoch) ∧
      (result = .error .verySlowIndexWrite → ∀ id, Untouched dataShards w.blobs w' id) := by
  have begin : Progress dataShards w.blobs (-1) Keyed.empty w := progress_empty (fun _ => .inl rfl) (-1)
  have leads : Leads (WriteIndex attempts dataShards) (fun w' results => ∃ epoch, Placed dataShards w.blobs w' results epoch)
      (Cleaned dataShards w.blobs) w := by
    refine leads_bind ((leads_writeAttempts attempts begin).imp (fun _ _ both => both) ?_) ?_
    · intro w' e stopped slow
      exact absurd slow stopped
    · rintro w' ⟨written,epoch⟩ ⟨progress,all,unknown⟩
      exact leads_finishWrite progress all unknown
  have ended := leads.steps succeeds
  rw [run] at ended
  constructor
  · intro results same
    exact ended.1 results (by rw [same])
  · intro same
    exact ended.2 _ (by rw [same]) rfl

def restartShards : Shards := ⟨[([1],[7]),([2],[8])],by decide⟩

def restartSnapshot (WriteEpoch : Int) (ValidUntil : Time) : CurrentSnapshot :=
  ⟨WriteEpoch,Keyed.empty,[],Keyed.empty,ValidUntil⟩

def restartName (epoch : Int) (shard : BlobID) : BlobID := UncompactedEpochBlobPrefix epoch ++ shard

/-- After the first blob the epoch has ended, and the write begins again in the next one. -/
def restartEndings : List Ending :=
  [.parameters ⟨true,40,1,120,200,10,1048576⟩,.state 0 (restartSnapshot 0 10),.visits [],.visits [[1],[2]],.time 0,.writes 5,.time 20,
    .parameters ⟨true,40,1,120,200,10,1048576⟩,.state 20 (restartSnapshot 1 30),.visits [restartName 0 [1]],.returns,
    .visits [[2],[1]],.time 21,.writes 21,.time 22,.writes 22,.returns,.state 23 (restartSnapshot 1 30),
    .visits [restartName 1 [2],restartName 1 [1]]]

def restartWorld : World := ⟨fun _ => none,none,none⟩

theorem WriteIndex_placed_restarted : ∃ w' results epoch,
    (WriteIndex 2 restartShards).steps act restartEndings restartWorld = (w',some (.ok results)) ∧
      Placed restartShards restartWorld.blobs w' results epoch := by
  have run : (WriteIndex 2 restartShards).steps act restartEndings restartWorld =
      (((WriteIndex 2 restartShards).steps act restartEndings restartWorld).1,
        some (.ok [⟨restartName 1 [2],1,21⟩,⟨restartName 1 [1],1,22⟩])) := Prod.ext rfl (by decide +kernel)
  have succeeds : (WriteIndex 2 restartShards).Along act Succeeds restartEndings restartWorld := by
    refine ⟨trivial,trivial,⟨_,rfl,.refl _⟩,⟨_,rfl,.refl _⟩,⟨_,rfl⟩,⟨_,rfl⟩,⟨_,rfl⟩,trivial,trivial,⟨_,rfl,.refl _⟩,rfl,?_⟩
    exact ⟨⟨_,rfl,.swap _ _ _⟩,⟨_,rfl⟩,⟨_,rfl⟩,⟨_,rfl⟩,⟨_,rfl⟩,rfl,trivial,⟨_,rfl,.refl _⟩,trivial⟩
  obtain ⟨epoch,placed⟩ := (WriteIndex_placed 2 restartShards restartWorld succeeds run).1 _ rfl
  exact ⟨_,_,epoch,run,placed⟩

end Vbe.Epoch
