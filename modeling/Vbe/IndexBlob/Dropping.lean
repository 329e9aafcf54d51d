import Vbe.IndexBlob.Completion

/-! What a compaction that drops deleted contents makes of the merged index. -/
namespace Vbe.IndexBlob.ManagerV0
open Vbe.Index Vbe.Library

section Programs
variable {st : Storage}

theorem ends_WriteIndexBlobs (settled : Settled st) (shards : List Builder) :
    Ends (WriteIndexBlobs shards) (fun st' bms => Settled st' ∧ ∃ outs, bms = outs.map Blob.metadata ∧ Wrote st st' shards outs) st := by
  induction shards generalizing st with
  | nil => exact ends_answer ⟨settled,[],rfl,.nil st⟩
  | cons shard shards ih =>
    refine ends_put (fun reply other => ?_) fun b index orderly => ?_
    · cases reply with
      | written bm => exact absurd rfl (other bm)
      | _ => rfl
    · have fresh : Fresh st b.BlobID := by
        rw [Blob.BlobID,index]
        exact orderly.1
      refine Query.Pre.andThen (ih (settled.put_index index fresh)) ?_
      rintro st' _ ⟨settled',outs,rfl,wrote⟩
      exact ends_answer ⟨settled',b :: outs,rfl,wrote.cons fresh index⟩

/-- Some active blobs are no longer, and new ones are. -/
def Replaced (st : Storage) (inputs : List Metadata) (outs : List Blob) (st' : Storage) : Prop :=
  ∀ b, Active st' b ↔ b ∈ outs ∨ Active st b ∧ b.metadata ∉ inputs

theorem ends_registerCompaction {st' : Storage} {shards : List Builder} {outs : List Blob} {inputs : List Metadata} (settle : Duration)
    (named : st.Named) (settled : Settled st') (wrote : Wrote st st' shards outs) (active : ∀ bm ∈ inputs, bm ∈ activeIndexBlobs st) :
    Ends (registerCompaction inputs (outs.map Blob.metadata) settle) (fun st'' _ => Settled st'' ∧ Replaced st inputs outs st'') st' := by
  have input (m : Metadata) (member : m ∈ inputs) : ∃ b, Active st b ∧ b.metadata = m := mem_activeIndexBlobs.mp (active m member)
  have other (out : Blob) (inside : out ∈ outs) (m : Metadata) (member : m ∈ inputs) : m.BlobID ≠ out.BlobID := by
    obtain ⟨b,there,rfl⟩ := input m member
    exact wrote.new out inside b there.1
  have honoured : Honoured st' ⟨inputs,outs.map Blob.metadata⟩ := by
    intro o output
    obtain ⟨out,inside,rfl⟩ := List.mem_map.mp output
    obtain ⟨there,⟨entries,index⟩,_⟩ := (wrote.active out).mpr (.inl inside)
    exact ⟨out,there,entries,index,rfl⟩
  refine ends_put (fun reply other => ?_) fun b kind orderly => ?_
  · cases reply with
    | written bm => exact absurd rfl (other bm)
    | _ => rfl
  have agrees := agrees_of_orderly kind rfl nofun orderly
  have settled' : Settled (st'.PutBlob b) := by
    refine settled.put_log kind agrees honoured (fun m member => ?_) (fun o output => ?_) orderly.2.1 fun some b' there e cleanup listed => ?_
    · obtain ⟨b',there,rfl⟩ := input m member
      exact ⟨b',(wrote.active b').mpr (.inr there),rfl⟩
    · obtain ⟨out,inside,rfl⟩ := List.mem_map.mp output
      exact ⟨other out inside,fun le logged => wrote.unlisted out inside le ((wrote.logged le).mp logged)⟩
    · rw [Blob.BlobID,kind] at listed
      refine orderly.2.2 some b' there ?_
      rw [cleanup]
      exact listed
  refine (ends_deleteOldBlobs settled' _ _).imp fun st'' _ undisturbed => ⟨undisturbed.settled,fun b' => ?_⟩
  rw [undisturbed.active,active_put_log agrees kind,wrote.active]
  constructor
  · rintro ⟨out | old,free⟩
    · exact .inl out
    · exact .inr ⟨old,fun listed => free ⟨honoured,b'.metadata,listed,rfl⟩⟩
  · rintro (out | ⟨old,unlisted⟩)
    · refine ⟨.inl out,?_⟩
      rintro ⟨_,m,member,same⟩
      exact other b' out m member same
    · refine ⟨.inr old,?_⟩
      rintro ⟨_,m,member,same⟩
      apply unlisted
      obtain ⟨b'',there,rfl⟩ := input m member
      obtain rfl : b'' = b' := List.inj_on_of_nodup_map named there.1 old.1 same
      exact member

/-- What the entries of some index blobs come down to. -/
def collected (st : Storage) (blobs : List Metadata) : Builder := Builder.empty.addAll (blobs.flatMap fun bm => entriesOf st bm.BlobID)

/-- All is as before, or some active blobs have been replaced by what is left of their entries. -/
def Compacted (st : Storage) (inputs : List Metadata) (opt : CompactOptions) (st' : Storage) : Prop :=
  (nothingToCompact (inputs.map Metadata.BlobID) opt.toCompactOptions ∧ ∀ b, Active st' b ↔ Active st b) ∨
    ∃ outs, (∀ i, Holding outs i ↔ i ∈ (dropContentsFromBuilder (collected st inputs) opt.toCompactOptions).infos) ∧
      Replaced st inputs outs st'

theorem ends_compactIndexBlobs (settled : Settled st) (mp : Option Formatting) {inputs : List Metadata}
    (active : ∀ bm ∈ inputs, bm ∈ activeIndexBlobs st) (opt : CompactOptions) :
    Ends (compactIndexBlobs mp inputs opt) (fun st' _ => Settled st' ∧ Compacted st inputs opt st') st := by
  unfold compactIndexBlobs
  split
  next nothing => exact ends_answer ⟨settled,.inl ⟨nothing,fun _ => Iff.rfl⟩⟩
  cases mp with
  | none => exact ends_fail
  | some mp =>
    refine Query.Pre.andThen (reads_addIndexBlobsToBuilder _ _).ends ?_
    rintro st1 bld ⟨rfl,rfl⟩
    dsimp only
    split
    next => exact ends_fail
    next dataShards sharded =>
      have shards : Builder.shard _ DefaultIndexShardSize = some dataShards := (Option.ite_none_right_eq_some.mp sharded).2
      refine Query.Pre.andThen (ends_WriteIndexBlobs settled dataShards) ?_
      rintro st' _ ⟨settled',outs,rfl,wrote⟩
      refine (ends_registerCompaction _ settled.named settled' wrote active).imp fun st'' _ both => ⟨both.1,.inr ⟨outs,fun i => ?_,both.2⟩⟩
      exact (holding_shards wrote.entries i).trans ((Builder.shard_infos shards).2 i)

theorem getBlobsToCompact_subset {indexBlobs : List Metadata} {opt : CompactOptions} {mp : Formatting} {bm : Metadata}
    (member : bm ∈ getBlobsToCompact indexBlobs opt mp) : bm ∈ indexBlobs := by
  unfold getBlobsToCompact at member
  dsimp only at member
  split at member
  next => exact absurd member List.not_mem_nil
  next =>
    split at member
    next => exact (List.mem_filter.mp (List.mem_filter.mp member).1).1
    next => exact (List.mem_filter.mp member).1

/-- The order in which index blobs are listed does not matter. -/
theorem getBlobsToCompact_perm {indexBlobs indexBlobs' : List Metadata} (perm : indexBlobs.Perm indexBlobs') (opt : CompactOptions)
    (mp : Formatting) : (getBlobsToCompact indexBlobs opt mp).Perm (getBlobsToCompact indexBlobs' opt mp) := by
  have nonCompacted := perm.filter fun b => !(b.Length > mp.MaxPackSize && !opt.AllIndexes)
  have verySmall := nonCompacted.filter fun b => b.Length < mp.MaxPackSize.tdiv verySmallContentFraction
  unfold getBlobsToCompact
  dsimp only
  rw [nonCompacted.length_eq,verySmall.length_eq]
  split
  next => exact .refl []
  next =>
    split
    next => exact verySmall
    next => exact nonCompacted

end Programs

section Best
variable {E E' : Info → Prop} {id : ID} {i j : Info}

/-- An entry of a content to which no other is preferred. -/
structure Best (E : Info → Prop) (id : ID) (i : Info) : Prop where
  there : E i
  own : i.contentID = id
  highest : ∀ j, E j → j.contentID = id → j.rank ≤ i.rank

theorem Best.ruled (best : Best E id i) (best' : Best E id j) : i.ruled = j.ruled :=
  Info.rank_eq_iff.mp (le_antisymm (best'.highest i best.there best.own) (best.highest j best'.there best'.own))

theorem deleted_of_ruled (same : i.ruled = j.ruled) : i.deleted = j.deleted := congrArg (fun r => r.2.1) same

theorem Best.congr (best : Best E id i) (same : ∀ j, E j ↔ E' j) : Best E' id i :=
  ⟨(same i).mp best.there,best.own,fun j there => best.highest j ((same j).mpr there)⟩

theorem best_get? {l : List Info} (found : (Builder.empty.addAll l).get? id = some i) : Best (· ∈ l) id i := by
  rw [Builder.get?_addAll,Builder.get?_empty] at found
  have member := List.mem_filter.mp ((best_mem found).resolve_right nofun)
  exact ⟨member.1,of_decide_eq_true member.2,fun j there same => rank_le_best found (.inl (List.mem_filter.mpr ⟨there,by simpa using same⟩))⟩

theorem get?_of_mem {l : List Info} (there : i ∈ l) : ∃ w, (Builder.empty.addAll l).get? i.contentID = some w := by
  rw [Builder.get?_addAll,Builder.get?_empty]
  refine Option.ne_none_iff_exists'.mp fun none => ?_
  have own : i ∈ l.filter fun j => j.contentID = i.contentID := List.mem_filter.mpr ⟨there,by simp⟩
  rw [(best_eq_none.mp none).1] at own
  exact absurd own List.not_mem_nil

/-- What the entries of a list come down to. -/
theorem best_of_get? {l : List Info} (same : ∀ i, i ∈ l ↔ E i) (found : (Builder.empty.addAll l).get? id = some i) : Best E id i :=
  (best_get? found).congr same

theorem Best.found {l : List Info} (best : Best E id i) (same : ∀ i, i ∈ l ↔ E i) :
    ∃ w, (Builder.empty.addAll l).get? id = some w ∧ w.ruled = i.ruled := by
  obtain ⟨w,found⟩ := get?_of_mem ((same i).mpr best.there)
  rw [best.own] at found
  exact ⟨w,found,(best_of_get? same found).ruled best⟩

end Best

section Dropping

/-- What `dropContentsFromBuilder` drops. -/
def drops (opt : IndexBlob.CompactOptions) (i : Info) : Prop :=
  i.contentID ∈ opt.dropContents ∨ i.deleted ∧ ∃ t, opt.dropDeletedBefore = some t ∧ i.timestampSeconds * 10 ^ 9 < t

theorem drops_congr {opt : IndexBlob.CompactOptions} {i j : Info} (own : i.contentID = j.contentID) (same : i.ruled = j.ruled) :
    drops opt i ↔ drops opt j := by
  have time : i.timestampSeconds = j.timestampSeconds := congrArg Prod.fst same
  rw [drops,drops,own,deleted_of_ruled same,time]

theorem get?_foldl_erase_ids (ids : List ID) (bld : Builder) (id : ID) :
    (ids.foldl Builder.erase bld).get? id = if id ∈ ids then none else bld.get? id := by
  induction ids generalizing bld with
  | nil => simp
  | cons first ids ih =>
    rw [List.foldl_cons,ih,Builder.get?_erase]
    by_cases same : id = first
    · simp [same]
    · simp [same]

theorem get?_dropContentsFromBuilder {bld : Builder} {opt : IndexBlob.CompactOptions} {id : ID} {i : Info} :
    (dropContentsFromBuilder bld opt).get? id = some i ↔ bld.get? id = some i ∧ ¬ drops opt i := by
  have erased := get?_foldl_erase_ids opt.dropContents bld
  have own (found : bld.get? id = some i) : i.contentID = id := Builder.get?_contentID found
  unfold dropContentsFromBuilder drops
  cases before : opt.dropDeletedBefore with
  | none =>
    rw [erased]
    grind
  | some t =>
    simp only [get?_foldl_erase]
    constructor
    · intro found
      split at found
      next => exact nomatch found
      next free =>
        rw [erased] at found
        split at found
        next => exact nomatch found
        next unlisted =>
          have same := own found
          refine ⟨found,?_⟩
          rintro (listed | ⟨deleted,t',equal,early⟩)
          · exact unlisted (same ▸ listed)
          · cases equal
            exact free ⟨i,Builder.mem_infos.mpr (by rw [erased,same,if_neg unlisted,found]),⟨deleted,early⟩,same⟩
    · rintro ⟨found,stays⟩
      rw [not_or] at stays
      have unlisted : id ∉ opt.dropContents := own found ▸ stays.1
      rw [if_neg,erased,if_neg unlisted,found]
      rintro ⟨j,member,⟨deleted,early⟩,same⟩
      rw [Builder.mem_infos,erased,same,if_neg unlisted,found] at member
      cases member
      exact stays.2 ⟨deleted,t,rfl,early⟩

variable {S R D : Info → Prop} {id : ID} {i j : Info} {opt : IndexBlob.CompactOptions}

/-- What is left of the best entries of some index blobs. -/
structure Leaves (S : Info → Prop) (opt : IndexBlob.CompactOptions) (D : Info → Prop) : Prop where
  best : ∀ d, D d → Best S d.contentID d ∧ ¬ drops opt d
  kept : ∀ id s, Best S id s → ¬ drops opt s → ∃ d, D d ∧ d.contentID = id ∧ d.ruled = s.ruled

/-- No deletion that is dropped is later than a live entry that was left out. -/
def SoundFor (S R : Info → Prop) (opt : IndexBlob.CompactOptions) (id : ID) : Prop :=
  ∀ s r, Best S id s → s.deleted → drops opt s → Best R id r → r.deleted = false → s.rank < r.rank

theorem Leaves.stays_deleted (leaves : Leaves S opt D) (sound : SoundFor S R opt id) (before : Best (fun i => S i ∨ R i) id i)
    (deleted : i.deleted) (after : Best (fun i => D i ∨ R i) id j) : j.deleted := by
  by_contra live
  rw [Bool.not_eq_true] at live
  have differs (k : Info) (same : k.rank = j.rank) : k.deleted = false := (deleted_of_ruled (Info.rank_eq_iff.mp same)).trans live
  rcases after.there with kept | left
  · have best := (leaves.best j kept).1
    rw [after.own] at best
    have below : j.rank ≤ i.rank := before.highest j (.inl best.there) after.own
    have above : i.rank ≤ j.rank := by
      rcases before.there with member | member
      · exact best.highest i member before.own
      · exact after.highest i (.inr member) before.own
    exact absurd deleted (by simp [differs i (le_antisymm above below)])
  · have below : j.rank ≤ i.rank := before.highest j (.inr left) after.own
    have best : Best R id j := ⟨left,after.own,fun k member own => after.highest k (.inr member) own⟩
    rcases before.there with member | member
    · have upper : Best S id i := ⟨member,before.own,fun k member own => before.highest k (.inl member) own⟩
      by_cases dropped : drops opt i
      · exact absurd below (not_le.mpr (sound i j upper deleted dropped best live))
      · obtain ⟨d,kept,own,same⟩ := leaves.kept id i upper dropped
        have above : d.rank ≤ j.rank := after.highest d (.inl kept) own
        rw [Info.rank_eq_iff.mpr same] at above
        exact absurd deleted (by simp [differs i (le_antisymm above below)])
    · have above : i.rank ≤ j.rank := after.highest i (.inr member) before.own
      exact absurd deleted (by simp [differs i (le_antisymm above below)])

theorem Leaves.stays_live (leaves : Leaves S opt D) (before : Best (fun i => S i ∨ R i) id i) (live : i.deleted = false)
    (listed : id ∉ opt.dropContents) : ∃ d, (D d ∨ R d) ∧ d.contentID = id ∧ d.ruled = i.ruled := by
  rcases before.there with member | member
  · have upper : Best S id i := ⟨member,before.own,fun k member own => before.highest k (.inl member) own⟩
    have stays : ¬ drops opt i := by
      rintro (inside | ⟨deleted,_⟩)
      · exact listed (before.own ▸ inside)
      · exact absurd deleted (by simp [live])
    obtain ⟨d,kept,own,same⟩ := leaves.kept id i upper stays
    exact ⟨d,.inl kept,own,same⟩
  · exact ⟨i,.inr member,before.own,rfl⟩

/-- A dropped deletion that was later than a live entry that was left out leaves the content live. -/
theorem Leaves.resurrected (leaves : Leaves S opt D) {s r : Info} (upper : Best S id s) (dropped : drops opt s) (best : Best R id r)
    (live : r.deleted = false) (above : r.rank ≤ s.rank) :
    Best (fun i => S i ∨ R i) id s ∧ ∀ j, Best (fun i => D i ∨ R i) id j → j.deleted = false := by
  refine ⟨⟨.inl upper.there,upper.own,?_⟩,fun j after => ?_⟩
  · rintro k (member | member) own
    · exact upper.highest k member own
    · exact (best.highest k member own).trans above
  · rcases after.there with kept | left
    · obtain ⟨best',stays⟩ := leaves.best j kept
      rw [after.own] at best'
      exact absurd ((drops_congr (after.own.trans upper.own.symm) (best'.ruled upper)).mpr dropped) stays
    · have same : Best R id j := ⟨left,after.own,fun k member own => after.highest k (.inr member) own⟩
      exact (deleted_of_ruled (same.ruled best)).trans live

/-- The entry of a content in the merged index. -/
def merged (st : Storage) (id : ID) : Option Info := (collected st (activeIndexBlobs st)).get? id

/-- Deleted contents stay deleted or are gone, and live ones keep their entry, unless they were listed to be dropped. An
equal entry is the same one, where no two entries of a content tie. -/
structure NotResurrected (st st' : Storage) (dropContents : List ID) : Prop where
  deleted : ∀ id i, merged st id = some i → i.deleted → ∀ j, merged st' id = some j → j.deleted
  live : ∀ id i, merged st id = some i → i.deleted = false → id ∉ dropContents →
    ∃ j, merged st' id = some j ∧ j.ruled = i.ruled ∧ ((∀ k ∈ activeEntries st, k.contentID = id → k.ruled = i.ruled → k = i) → j = i)

/-- No deletion that is dropped takes precedence over a live entry in the active blobs that are left out. -/
def Sound (st : Storage) (opt : CompactOptions) (mp : Formatting) : Prop :=
  ∀ id s r, (collected st (getBlobsToCompact (activeIndexBlobs st) opt mp)).get? id = some s → s.deleted →
    drops opt.toCompactOptions s →
    (collected st ((activeIndexBlobs st).filter fun bm => bm ∉ getBlobsToCompact (activeIndexBlobs st) opt mp)).get? id = some r →
    r.deleted = false → contentInfoGreaterThanStruct r s

theorem ends_Compact {st : Storage} (settled : Settled st) (mp : Formatting) (mp' : Option Formatting) (opt : CompactOptions) :
    Ends (Compact (some mp) mp' opt) (fun st' _ => Settled st' ∧ ∃ inputs,
      (∀ bm, bm ∈ inputs ↔ bm ∈ getBlobsToCompact (activeIndexBlobs st) opt mp) ∧ Compacted st inputs opt st') st := by
  refine Query.Pre.andThen (reads_ListActiveIndexBlobs settled.named).ends ?_
  rintro st1 indexBlobs ⟨rfl,perm⟩
  have active : ∀ bm ∈ getBlobsToCompact indexBlobs opt mp, bm ∈ activeIndexBlobs st1 :=
    fun bm member => perm.mem_iff.mp (getBlobsToCompact_subset member)
  refine Query.Pre.andThen (ends_compactIndexBlobs settled mp' active opt) ?_
  rintro st2 _ ⟨settled',compacted⟩
  refine (ends_cleanup settled' _).imp fun st3 _ undisturbed => ⟨undisturbed.settled,getBlobsToCompact indexBlobs opt mp,fun bm => ?_,?_⟩
  · exact (getBlobsToCompact_perm perm opt mp).mem_iff
  · refine compacted.imp (fun both => ⟨both.1,fun b => (undisturbed.active b).trans (both.2 b)⟩) ?_
    rintro ⟨outs,holding,replaced⟩
    exact ⟨outs,holding,fun b => (undisturbed.active b).trans (replaced b)⟩

section Merges
variable {st st' : Storage} {opt : CompactOptions} {mp : Formatting} {inputs : List Metadata} {i : Info}

/-- The entries of the index blobs that are compacted, and of those that are not. -/
def Taken (st : Storage) (inputs : List Metadata) (i : Info) : Prop := ∃ bm ∈ inputs, i ∈ entriesOf st bm.BlobID

def Left (st : Storage) (inputs : List Metadata) (i : Info) : Prop := ∃ b, (Active st b ∧ b.metadata ∉ inputs) ∧ Has b i

theorem has_iff (named : st.Named) {b : Blob} (there : b ∈ st) : i ∈ entriesOf st b.BlobID ↔ Has b i := by
  rw [mem_entriesOf named]
  constructor
  · rintro ⟨b',there',entries,same,kind,inside⟩
    obtain rfl : b' = b := List.inj_on_of_nodup_map named there' there same
    exact ⟨entries,kind,inside⟩
  · rintro ⟨entries,kind,inside⟩
    exact ⟨b,there,entries,rfl,kind,inside⟩

theorem mem_taken : i ∈ (inputs.flatMap fun bm => entriesOf st bm.BlobID) ↔ Taken st inputs i := List.mem_flatMap

theorem mem_left (named : st.Named) :
    i ∈ (((activeIndexBlobs st).filter fun bm => bm ∉ inputs).flatMap fun bm => entriesOf st bm.BlobID) ↔ Left st inputs i := by
  simp only [List.mem_flatMap,List.mem_filter,mem_activeIndexBlobs,decide_eq_true_eq]
  constructor
  · rintro ⟨_,⟨⟨b,active,rfl⟩,unlisted⟩,inside⟩
    exact ⟨b,⟨active,unlisted⟩,(has_iff named active.1).mp inside⟩
  · rintro ⟨b,⟨active,unlisted⟩,has⟩
    exact ⟨b.metadata,⟨⟨b,active,rfl⟩,unlisted⟩,(has_iff named active.1).mpr has⟩

theorem mem_either (named : st.Named) (active : ∀ bm ∈ inputs, bm ∈ activeIndexBlobs st) :
    i ∈ activeEntries st ↔ Taken st inputs i ∨ Left st inputs i := by
  rw [mem_activeEntries named]
  constructor
  · rintro ⟨b,there,has⟩
    by_cases listed : b.metadata ∈ inputs
    · exact .inl ⟨b.metadata,listed,(has_iff named there.1).mpr has⟩
    · exact .inr ⟨b,⟨there,listed⟩,has⟩
  · rintro (⟨bm,listed,inside⟩ | ⟨b,⟨there,_⟩,has⟩)
    · obtain ⟨b,there,rfl⟩ := mem_activeIndexBlobs.mp (active bm listed)
      exact ⟨b,there,(has_iff named there.1).mp inside⟩
    · exact ⟨b,there,has⟩

theorem mem_after {outs : List Blob} (named : st'.Named) (replaced : Replaced st inputs outs st') :
    i ∈ activeEntries st' ↔ Holding outs i ∨ Left st inputs i := by
  rw [mem_activeEntries named]
  simp only [replaced _,or_and_right,exists_or]
  rfl

theorem leaves_collected {outs : List Blob}
    (holding : ∀ i, Holding outs i ↔ i ∈ (dropContentsFromBuilder (collected st inputs) opt.toCompactOptions).infos) :
    Leaves (Taken st inputs) opt.toCompactOptions (Holding outs) := by
  constructor
  · intro d kept
    rw [holding,Builder.mem_infos,get?_dropContentsFromBuilder] at kept
    exact ⟨best_of_get? (fun i => mem_taken) kept.1,kept.2⟩
  · intro id s best stays
    obtain ⟨w,found,same⟩ := best.found fun i => mem_taken
    have own := Builder.get?_contentID found
    have kept : ¬ drops opt.toCompactOptions w := (drops_congr (own.trans best.own.symm) same).not.mpr stays
    refine ⟨w,(holding w).mpr (Builder.mem_infos.mpr ?_),own,same⟩
    rw [own]
    exact get?_dropContentsFromBuilder.mpr ⟨found,kept⟩

theorem sound_iff (named : st.Named) (same : ∀ bm, bm ∈ inputs ↔ bm ∈ getBlobsToCompact (activeIndexBlobs st) opt mp) :
    Sound st opt mp ↔ ∀ id, SoundFor (Taken st inputs) (Left st inputs) opt.toCompactOptions id := by
  have taken (i : Info) : i ∈ ((getBlobsToCompact (activeIndexBlobs st) opt mp).flatMap fun bm => entriesOf st bm.BlobID) ↔
      Taken st inputs i := by
    rw [mem_taken,Taken,Taken]
    simp only [same]
  have left (i : Info) : i ∈ (((activeIndexBlobs st).filter fun bm => bm ∉ getBlobsToCompact (activeIndexBlobs st) opt mp).flatMap
      fun bm => entriesOf st bm.BlobID) ↔ Left st inputs i := by
    rw [mem_left named,Left,Left]
    simp only [same]
  constructor
  · intro sound id s r upper deleted dropped best live
    obtain ⟨s',found,ruled⟩ := upper.found taken
    obtain ⟨r',found',ruled'⟩ := best.found left
    have own : s'.contentID = s.contentID := (Builder.get?_contentID found).trans upper.own.symm
    have greater := sound id s' r' found ((deleted_of_ruled ruled).trans deleted) ((drops_congr own ruled).mpr dropped) found'
      ((deleted_of_ruled ruled').trans live)
    rwa [contentInfoGreaterThanStruct_iff,Info.rank_eq_iff.mpr ruled,Info.rank_eq_iff.mpr ruled'] at greater
  · intro sound id s r found deleted dropped found' live
    exact contentInfoGreaterThanStruct_iff.mpr
      (sound id s r (best_of_get? taken found) deleted dropped (best_of_get? left found') live)

theorem not_drops_of_nothing {blobIDs : List BlobID} (nothing : nothingToCompact blobIDs opt.toCompactOptions) :
    ¬ drops opt.toCompactOptions i := by
  obtain ⟨_,none,empty⟩ := nothing
  rintro (listed | ⟨_,t,some,_⟩)
  · rw [List.length_eq_zero_iff.mp empty] at listed
    exact absurd listed List.not_mem_nil
  · exact nomatch none.symm.trans some

theorem notResurrected_iff (settled : Settled st) (settled' : Settled st')
    (same : ∀ bm, bm ∈ inputs ↔ bm ∈ getBlobsToCompact (activeIndexBlobs st) opt mp) (compacted : Compacted st inputs opt st') :
    NotResurrected st st' opt.dropContents ↔ Sound st opt mp := by
  have named := settled.named
  have active : ∀ bm ∈ inputs, bm ∈ activeIndexBlobs st := fun bm member => getBlobsToCompact_subset ((same bm).mp member)
  have before (i : Info) : i ∈ activeEntries st ↔ Taken st inputs i ∨ Left st inputs i := mem_either named active
  rw [sound_iff named same]
  rcases compacted with ⟨nothing,unchanged⟩ | ⟨outs,holding,replaced⟩
  · have after (i : Info) : i ∈ activeEntries st' ↔ i ∈ activeEntries st := by
      rw [mem_activeEntries settled'.named,mem_activeEntries named]
      simp only [unchanged]
    refine iff_of_true ⟨fun id i found deleted j found' => ?_,fun id i found live _ => ?_⟩ ?_
    · exact (deleted_of_ruled ((best_of_get? after found').ruled (best_get? found))).trans deleted
    · obtain ⟨j,found',ruled⟩ := (best_get? found).found after
      refine ⟨j,found',ruled,fun untied => untied j ?_ (Builder.get?_contentID found') ruled⟩
      exact (best_of_get? after found').there
    · exact fun id s r _ _ dropped => absurd dropped (not_drops_of_nothing nothing)
  · have after (i : Info) : i ∈ activeEntries st' ↔ Holding outs i ∨ Left st inputs i := mem_after settled'.named replaced
    have leaves := leaves_collected holding
    constructor
    · intro kept id s r upper deleted dropped best live
      by_contra above
      obtain ⟨highest,resurrected⟩ := leaves.resurrected upper dropped best live (not_lt.mp above)
      obtain ⟨m,found,ruled⟩ := highest.found before
      obtain ⟨j,found'⟩ := get?_of_mem ((after r).mpr (.inr best.there))
      rw [best.own] at found'
      have gone := kept.deleted id m found ((deleted_of_ruled ruled).trans deleted) j found'
      rw [resurrected j (best_of_get? after found')] at gone
      exact nomatch gone
    · intro sound
      refine ⟨fun id i found deleted j found' => ?_,fun id i found live unlisted => ?_⟩
      · exact leaves.stays_deleted (sound id) (best_of_get? before found) deleted (best_of_get? after found')
      · have best := best_of_get? before found
        obtain ⟨d,there,own,ruled⟩ := leaves.stays_live best live unlisted
        obtain ⟨j,found'⟩ := get?_of_mem ((after d).mpr there)
        rw [own] at found'
        have highest := best_of_get? after found'
        have inside : Taken st inputs j ∨ Left st inputs j := highest.there.imp_left fun kept => (leaves.best j kept).1.there
        have equal : j.rank = i.rank := by
          refine le_antisymm (best.highest j inside highest.own) ?_
          rw [← Info.rank_eq_iff.mpr ruled]
          exact highest.highest d there own
        exact ⟨j,found',Info.rank_eq_iff.mp equal,fun untied => untied j ((before j).mpr inside) highest.own (Info.rank_eq_iff.mp equal)⟩

end Merges

/-- After a compaction that ends deleted contents are not live again just if no deletion was dropped that was later than
a live entry in the index blobs left out. -/
theorem Compact_resurrects_iff (mp : Formatting) (mp' : Option Formatting) (opt : CompactOptions) {st : Storage} (settled : Settled st)
    {endings : List Ending} (orderly : (Compact (some mp) mp' opt).Along Storage.perform Orderly endings st) {st' : Storage}
    (run : (Compact (some mp) mp' opt).steps Storage.perform endings st = (st',some (.ok ()))) :
    NotResurrected st st' opt.dropContents ↔ Sound st opt mp := by
  have ended := (ends_Compact settled mp mp' opt).steps orderly
  rw [run] at ended
  obtain ⟨settled',inputs,same,compacted⟩ := ended
  exact notResurrected_iff settled settled' same compacted

end Dropping

section Selection
variable {st : Storage} {opt : CompactOptions} {mp : Formatting}

theorem sound_of_all (all : ∀ bm ∈ activeIndexBlobs st, bm ∈ getBlobsToCompact (activeIndexBlobs st) opt mp) : Sound st opt mp := by
  intro id s r _ _ _ found _
  have none : (activeIndexBlobs st).filter (fun bm => bm ∉ getBlobsToCompact (activeIndexBlobs st) opt mp) = [] := by
    rw [List.filter_eq_nil_iff]
    intro bm active
    simpa using all bm active
  rw [none] at found
  exact nomatch (Builder.get?_empty id).symm.trans found

/-- Without a number of small blobs that are left alone all index blobs are compacted, as by maintenance. -/
theorem sound_of_few (allIndexes : opt.AllIndexes) (few : opt.MaxSmallBlobs ≤ 1) : Sound st opt mp := by
  refine sound_of_all fun bm active => ?_
  unfold getBlobsToCompact
  simp only [allIndexes,Bool.not_true,Bool.and_false,Bool.not_false,List.filter_true]
  split
  next fewer =>
    have empty : activeIndexBlobs st = [] := List.length_eq_zero_iff.mp (by omega)
    rwa [empty] at active
  next =>
    rw [if_neg (by omega)]
    exact active

end Selection

section Examples

def largeIndex : Blob := ⟨[65],2000000,0,.index [someInfo deletedContent 5 false]⟩

def smallDeletion : Blob := ⟨[66],50,0,.index [someInfo deletedContent 6 true]⟩

def smallIndex : Blob := ⟨[67],50,0,.index [someInfo keptContent 5 false]⟩

def threeIndexes : Storage := [largeIndex,smallDeletion,smallIndex]

/-- All indexes are asked for, and the deletions before ten seconds to be dropped. -/
def dropping (maxSmallBlobs : Nat) : CompactOptions := ⟨⟨some 10000000000,[]⟩,maxSmallBlobs,true,false⟩

theorem threeIndexes_settled : Settled threeIndexes := by
  have index : ∀ b ∈ threeIndexes, ∃ entries, b.payload = .index entries := by
    simp [threeIndexes,largeIndex,smallDeletion,smallIndex]
  refine ⟨⟨by unfold Storage.Named; decide,?_⟩,?_,?_,?_,?_⟩
  · intro b member e kind
    obtain ⟨entries,index⟩ := index b member
    exact nomatch index.symm.trans kind
  · rintro le ⟨b,member,kind⟩
    obtain ⟨entries,index⟩ := index b member
    exact nomatch index.symm.trans kind
  · intro b member b' _ le le' kind
    obtain ⟨entries,index⟩ := index b member
    exact nomatch index.symm.trans kind
  · rintro le ⟨b,member,kind⟩
    obtain ⟨entries,index⟩ := index b member
    exact nomatch index.symm.trans kind
  · intro b member e kind
    obtain ⟨entries,index⟩ := index b member
    exact nomatch index.symm.trans kind

/-- A compaction of some of the blobs up to its end. -/
def compacting (inputs : List Ending) : List Ending :=
  [.lists [],.lists [largeIndex.metadata,smallDeletion.metadata,smallIndex.metadata]] ++ inputs ++
    [.writes [69] 50 100,.writes [3] 20 100,.lists [⟨[109,3],20,100⟩],.visits [],.lists [],.visits [],.visits []]

theorem Compact_resurrects_iff_two : NotResurrected threeIndexes
    ((Compact (some someFormatting) (some someFormatting) (dropping 2)).steps Storage.perform
      (compacting [.returns,.returns,.returns]) threeIndexes).1 [] ↔ Sound threeIndexes (dropping 2) someFormatting := by
  have run : (Compact (some someFormatting) (some someFormatting) (dropping 2)).steps Storage.perform
      (compacting [.returns,.returns,.returns]) threeIndexes = (_,some (.ok ())) := Prod.ext rfl (by decide +kernel)
  have unambiguous : (Compact (some someFormatting) (some someFormatting) (dropping 2)).Along Storage.perform Unambiguous
      (compacting [.returns,.returns,.returns]) threeIndexes := by decide +kernel
  have forward : (Compact (some someFormatting) (some someFormatting) (dropping 2)).Along Storage.perform Forward
      (compacting [.returns,.returns,.returns]) threeIndexes := by decide +kernel
  exact Compact_resurrects_iff someFormatting (some someFormatting) (dropping 2) threeIndexes_settled (unambiguous.and forward) run

/-- The large index is left out, and the deletion of its content is dropped. -/
theorem Compact_resurrects : ¬ ∀ (mp : Formatting) (mp' : Option Formatting) (opt : CompactOptions) (st : Storage), Settled st →
    opt.AllIndexes = true → opt.dropDeletedBefore ≠ none → ∀ endings : List Ending,
    (Compact (some mp) mp' opt).Along Storage.perform Unambiguous endings st →
    (Compact (some mp) mp' opt).Along Storage.perform Forward endings st →
    ∀ st', (Compact (some mp) mp' opt).steps Storage.perform endings st = (st',some (.ok ())) →
    NotResurrected st st' opt.dropContents := by
  intro claim
  have run : (Compact (some someFormatting) (some someFormatting) (dropping 3)).steps Storage.perform
      (compacting [.returns,.returns]) threeIndexes = (_,some (.ok ())) := Prod.ext rfl (by decide +kernel)
  have kept := claim someFormatting (some someFormatting) (dropping 3) threeIndexes threeIndexes_settled rfl nofun
    (compacting [.returns,.returns]) (by decide +kernel) (by decide +kernel) _ run
  have deleted : merged threeIndexes deletedContent = some (someInfo deletedContent 6 true) := by decide +kernel
  have live : merged ((Compact (some someFormatting) (some someFormatting) (dropping 3)).steps Storage.perform
      (compacting [.returns,.returns]) threeIndexes).1 deletedContent = some (someInfo deletedContent 5 false) := by decide +kernel
  exact nomatch kept.deleted deletedContent _ deleted rfl _ live

end Examples

end Vbe.IndexBlob.ManagerV0
