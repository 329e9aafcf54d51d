import Vbe.Content.Resolution
import Vbe.Index.Reopened
import Vbe.Library.Listings

/-! Iterations over contents and over the packs they are in. An iteration delivers the
uncommitted entries and then the committed ones. It agrees with lookups exactly where no
content has an entry on both sides that it delivers. -/
namespace Vbe.Content
open Vbe.Index Vbe.Library.Listings Vbe.Library.Runs

section Options

/-- `IncludeDeleted` and `Range`; the callback is called sequentially. -/
structure IterateOptions where
  includeDeleted : Bool
  range : IDRange

/-- A range that is not specified holds all identifiers. -/
def IterateOptions.resolved (opts : IterateOptions) : IterateOptions :=
  if opts.range = ⟨[],[]⟩ then {opts with range := AllIDs} else opts

structure IteratePackOptions where
  includePacksWithOnlyDeletedContent : Bool
  includeContentInfos : Bool
  prefixes : List BlobID

def IteratePackOptions.matchesBlob (o : IteratePackOptions) (id : BlobID) : Bool :=
  if o.prefixes.length = 0 then true else o.prefixes.any fun p => p.isPrefixOf id

structure PackInfo where
  packID : BlobID
  contentCount : Nat
  totalSize : Nat
  contentInfos : List Info
deriving DecidableEq

/-- What the callback of `IteratePacks` does to the entry of a pack. -/
def PackInfo.count (options : IteratePackOptions) (pi : PackInfo) (ci : Info) : PackInfo where
  packID := ci.packBlobID
  contentCount := pi.contentCount + 1
  totalSize := pi.totalSize + ci.packedLength.toNat
  contentInfos := if options.includeContentInfos then pi.contentInfos ++ [ci] else pi.contentInfos

/-- The packs that have been seen, one entry each. -/
def countContent (options : IteratePackOptions) (packUsage : List PackInfo) (ci : Info) : List PackInfo :=
  if !options.matchesBlob ci.packBlobID then packUsage
  else if packUsage.any fun pi => pi.packID = ci.packBlobID then
    packUsage.map fun pi => if pi.packID = ci.packBlobID then pi.count options ci else pi
  else packUsage ++ [PackInfo.count options ⟨[],0,0,[]⟩ ci]

namespace WriteManager

/-- The whole of `IterateContents`, with the shortcut for managers that have written nothing. -/
def iterate (bm : WriteManager) (opts : IterateOptions) : List Info :=
  let opts := opts.resolved
  let uncommitted := bm.snapshotUncommittedItems
  if uncommitted.infos.length = 0 ∧ opts.includeDeleted ∧ opts.range = AllIDs then bm.listContents opts.range
  else bm.IterateContents opts.includeDeleted opts.range

def IteratePacks (bm : WriteManager) (options : IteratePackOptions) : List PackInfo :=
  (bm.iterate ⟨options.includePacksWithOnlyDeletedContent,⟨[],[]⟩⟩).foldl (countContent options) []

end WriteManager

end Options

section Delivered
variable {bm : WriteManager} {c : ID}

theorem lists_infos (b : Builder) : Lists Info.contentID b.get? b.infos := by
  refine ⟨b.nodup_contentIDs,fun i => ?_⟩
  exact Builder.mem_infos

theorem infos_filter (b : Builder) (c : ID) : b.infos.filter (fun i => i.contentID = c) = (b.get? c).toList :=
  (lists_iff fun _ _ => Builder.get?_contentID).mp (lists_infos b) c

namespace WriteManager

theorem getContent_contentID {i : Info} (found : bm.getContent c = some i) :
    (∃ b ∈ bm.committed, b.get? c = some i) ∧ i.contentID = c := by
  rw [getContent_eq] at found
  obtain ⟨b,member,entry⟩ := mergedInfo_mem (Layers.mem_visible found).1
  exact ⟨⟨b,member,entry⟩,Builder.get?_contentID entry⟩

theorem listContents_filter (bm : WriteManager) (r : IDRange) (c : ID) :
    (bm.listContents r).filter (fun i => i.contentID = c) =
      (if r.Contains c then bm.getContent c else none).toList := by
  have listed := lists_filterMap (fun c i (found : bm.getContent c = some i) => (getContent_contentID found).2)
    ((List.nodup_dedup ((bm.committed.flatMap Builder.infos).map Info.contentID)).filter r.Contains)
  have entry := (lists_iff fun d i found => ?_).mp listed c
  · refine entry.trans (congrArg Option.toList ?_)
    by_cases contains : r.Contains c
    · cases found : bm.getContent c with
      | none => simp
      | some i =>
        obtain ⟨⟨b,member,entry⟩,own⟩ := getContent_contentID found
        have there : c ∈ ((bm.committed.flatMap Builder.infos).map Info.contentID).dedup := by
          refine List.mem_dedup.mpr (List.mem_map.mpr ⟨i,List.mem_flatMap.mpr ⟨b,member,?_⟩,own⟩)
          rw [Builder.mem_infos,own]
          exact entry
        rw [if_pos (List.mem_filter.mpr ⟨there,contains⟩),if_pos contains]
    · simp [contains]
  · split at found
    · exact (getContent_contentID found).2
    · contradiction

theorem listContents_contains {r : IDRange} {i : Info} (listed : i ∈ bm.listContents r) : r.Contains i.contentID := by
  have member : i ∈ (bm.listContents r).filter fun j => j.contentID = i.contentID := by simp [listed]
  rw [listContents_filter] at member
  split at member
  next contains => exact contains
  next => simp at member

theorem snapshotUncommittedItems_get? (bm : WriteManager) (c : ID) :
    bm.snapshotUncommittedItems.get? c =
      best (entriesOf bm.pendingPacks c ++ entriesOf bm.writingPacks c) (bm.packIndexBuilder.get? c) := by
  rw [snapshotUncommittedItems,get?_addPacks,get?_addPacks,best,best,best,List.foldl_append]

/-- The first entry of the content that is not committed. -/
def overlayEntry (bm : WriteManager) (c : ID) : Option Info := (bm.getOverlayContentInfo c).map Prod.snd

theorem overlayEntry_eq (bm : WriteManager) (c : ID) : bm.overlayEntry c =
    (entriesOf bm.pendingPacks c ++ entriesOf bm.writingPacks c).head?.or (bm.packIndexBuilder.get? c) := by
  have pending := findInPacks_eq bm.pendingPacks c
  have writing := findInPacks_eq bm.writingPacks c
  rw [List.head?_append,← pending,← writing]
  unfold overlayEntry getOverlayContentInfo
  cases findInPacks bm.pendingPacks c with
  | some found => simp
  | none =>
    cases findInPacks bm.writingPacks c with
    | some found => simp
    | none => cases bm.packIndexBuilder.get? c <;> simp

theorem ContentInfo_overlay (bm : WriteManager) (c : ID) :
    bm.ContentInfo c = (bm.overlayEntry c).or (bm.getContent c) := by
  unfold ContentInfo getContentInfo overlayEntry
  cases bm.getOverlayContentInfo c with
  | some found => simp
  | none => cases bm.getContent c <;> simp

theorem ContentInfo_contentID {i : Info} (found : bm.ContentInfo c = some i) : i.contentID = c := by
  rw [ContentInfo_overlay,overlayEntry_eq] at found
  rcases Option.or_eq_some_iff.mp found with overlay | ⟨_,committed⟩
  · rcases Option.or_eq_some_iff.mp overlay with inPack | ⟨_,built⟩
    · have member := List.mem_of_mem_head? inPack
      rw [← entriesOf_append] at member
      obtain ⟨pp,_,entry⟩ := List.mem_filterMap.mp member
      exact Builder.get?_contentID entry
    · exact Builder.get?_contentID built
  · exact (getContent_contentID committed).2

/-- A content has an uncommitted entry where the snapshot has one. -/
theorem overlayEntry_eq_none : bm.overlayEntry c = none ↔ bm.snapshotUncommittedItems.get? c = none := by
  rw [snapshotUncommittedItems_get?,best_eq_none,overlayEntry_eq]
  simp [Option.or_eq_none_iff]

end WriteManager

end Delivered

section Agreement
variable {bm : WriteManager} {c : ID}

/-- What an iteration should deliver for a content. -/
def WriteManager.expected (bm : WriteManager) (opts : IterateOptions) (c : ID) : Option Info :=
  if opts.resolved.range.Contains c then (bm.ContentInfo c).filter fun i => opts.includeDeleted || !i.deleted
  else none

/-- The entries of a content are delivered as a lookup answers: it has no uncommitted
entry; or the uncommitted ones say that it is deleted, and deletions are left out; or
no committed entry is visible, and of the uncommitted ones the first is the winner. -/
def WriteManager.OneSided (bm : WriteManager) (includeDeleted : Bool) (c : ID) : Prop :=
  bm.overlayEntry c = none ∨
  (includeDeleted = false ∧ (∀ i ∈ bm.snapshotUncommittedItems.get? c, i.deleted = true) ∧
    ∀ i ∈ bm.overlayEntry c, i.deleted = true) ∨
  (bm.getContent c = none ∧ bm.snapshotUncommittedItems.get? c = bm.overlayEntry c ∧
    (includeDeleted = true ∨ ∀ i ∈ bm.overlayEntry c, i.deleted = false))

namespace WriteManager

/-- The shortcut delivers the same. -/
theorem iterate_eq (bm : WriteManager) (opts : IterateOptions) :
    bm.iterate opts = bm.IterateContents opts.includeDeleted opts.resolved.range := by
  have kept : opts.resolved.includeDeleted = opts.includeDeleted := by
    unfold IterateOptions.resolved
    split <;> rfl
  unfold iterate
  dsimp only
  rw [kept]
  split
  next shortcut =>
    obtain ⟨none,included,_⟩ := shortcut
    have all : (bm.listContents opts.resolved.range).filter (fun i => opts.resolved.range.Contains i.contentID) =
        bm.listContents opts.resolved.range :=
      List.filter_eq_self.mpr fun i listed => listContents_contains listed
    simp [IterateContents,List.length_eq_zero_iff.mp none,included,all]
  next => rfl

theorem IterateContents_filter (bm : WriteManager) (includeDeleted : Bool) (r : IDRange) (c : ID) :
    (bm.IterateContents includeDeleted r).filter (fun i => i.contentID = c) =
      if r.Contains c then
        (((bm.snapshotUncommittedItems.get? c).filter fun i => includeDeleted || !i.deleted).toList ++
          ((bm.getContent c).filter fun i => includeDeleted ||
            !((bm.snapshotUncommittedItems.get? c).getD i).deleted).toList)
      else [] := by
  have own {l : List Info} {o : Option Info} (entry : l.filter (fun i => i.contentID = c) = o.toList)
      (p q : Info → Bool) (same : ∀ i ∈ o, p i = (q i && r.Contains c)) :
      (l.filter p).filter (fun i => i.contentID = c) = if r.Contains c then (o.filter q).toList else [] := by
    rw [List.filter_comm,entry]
    cases o with
    | none => simp
    | some i =>
      have kept := same i rfl
      cases test : q i <;> cases contains : r.Contains c <;> simp [Option.filter,test,contains,kept]
  unfold IterateContents
  dsimp only
  rw [List.filter_append,own (infos_filter _ c) _ fun i => includeDeleted || !i.deleted,
    own (listContents_filter bm r c) _ fun i => includeDeleted || !((bm.snapshotUncommittedItems.get? c).getD i).deleted]
  · by_cases contains : r.Contains c <;> simp [contains]
  · intro i found
    have same : i.contentID = c := by
      by_cases contains : r.Contains c <;> simp only [contains] at found
      · exact (getContent_contentID found).2
      · contradiction
    cases uncommitted : bm.snapshotUncommittedItems.get? c <;> simp [same,uncommitted]
  · intro i found
    simp [Builder.get?_contentID found,Option.mem_def.mp found]

/-- An iteration agrees with a lookup of a content where the content is one-sided. -/
theorem iterate_filter_iff (bm : WriteManager) (opts : IterateOptions) (c : ID) :
    (bm.iterate opts).filter (fun i => i.contentID = c) = (bm.expected opts c).toList ↔
      (opts.resolved.range.Contains c → bm.OneSided opts.includeDeleted c) := by
  rw [iterate_eq,IterateContents_filter,expected,ContentInfo_overlay]
  by_cases contains : opts.resolved.range.Contains c
  · have both : bm.overlayEntry c = none ↔ bm.snapshotUncommittedItems.get? c = none := overlayEntry_eq_none
    simp only [contains,if_true,forall_const,OneSided]
    generalize bm.getContent c = committed
    generalize overlay : bm.overlayEntry c = first at *
    generalize snapshot : bm.snapshotUncommittedItems.get? c = uncommitted at *
    cases first with
    | none =>
      cases both.mp rfl
      simp
    | some o =>
      cases uncommitted with
      | none => simp at both
      | some u =>
        cases included : opts.includeDeleted <;> cases uDeleted : u.deleted <;> cases oDeleted : o.deleted <;>
          cases committed <;> simp [Option.filter,uDeleted,oDeleted]
        all_goals grind
  · simp [contains]

end WriteManager

end Agreement

section Packs
variable {options : IteratePackOptions} {l : List Info} {packUsage : List PackInfo}

/-- The entry of a pack with the given contents. -/
def PackInfo.of (options : IteratePackOptions) (id : BlobID) (contents : List Info) : PackInfo where
  packID := id
  contentCount := contents.length
  totalSize := (contents.map fun ci => ci.packedLength.toNat).sum
  contentInfos := if options.includeContentInfos then contents else []

/-- The packs of some contents that match the options, each with its contents. -/
structure Grouped (options : IteratePackOptions) (l : List Info) (packUsage : List PackInfo) : Prop where
  nodup : (packUsage.map PackInfo.packID).Nodup
  mem : ∀ id, id ∈ packUsage.map PackInfo.packID ↔ options.matchesBlob id = true ∧ ∃ i ∈ l, i.packBlobID = id
  entry : ∀ p ∈ packUsage, p = PackInfo.of options p.packID (l.filter fun i => i.packBlobID = p.packID)

theorem PackInfo.count_of (id : BlobID) (contents : List Info) {ci : Info} (own : ci.packBlobID = id) :
    (PackInfo.of options id contents).count options ci = PackInfo.of options id (contents ++ [ci]) := by
  unfold PackInfo.count PackInfo.of
  cases options.includeContentInfos <;> simp [own]

theorem filter_append_other {id : BlobID} {ci : Info} (other : ci.packBlobID ≠ id) :
    (l ++ [ci]).filter (fun i => i.packBlobID = id) = l.filter fun i => i.packBlobID = id := by
  simp [List.filter_append,other]

theorem filter_append_own {id : BlobID} {ci : Info} (own : ci.packBlobID = id) :
    (l ++ [ci]).filter (fun i => i.packBlobID = id) = (l.filter fun i => i.packBlobID = id) ++ [ci] := by
  simp [List.filter_append,own]

theorem Grouped.countContent (grouped : Grouped options l packUsage) (ci : Info) :
    Grouped options (l ++ [ci]) (countContent options packUsage ci) := by
  unfold Content.countContent
  split
  next mismatched =>
    refine ⟨grouped.nodup,fun id => ?_,fun p member => ?_⟩
    · rw [grouped.mem]
      refine and_congr_right fun accepted => ?_
      have other : ci.packBlobID ≠ id := by
        rintro rfl
        simp [accepted] at mismatched
      simp [other]
    · have accepted := ((grouped.mem p.packID).mp (List.mem_map_of_mem member)).1
      rw [filter_append_other]
      · exact grouped.entry p member
      · intro same
        simp [same,accepted] at mismatched
  next matched =>
    have accepted : options.matchesBlob ci.packBlobID = true := by simpa using matched
    split
    next known =>
      have there : ci.packBlobID ∈ packUsage.map PackInfo.packID := by simpa [List.any_eq_true] using known
      have ids : (packUsage.map fun pi => if pi.packID = ci.packBlobID then pi.count options ci else pi).map
          PackInfo.packID = packUsage.map PackInfo.packID := by
        rw [List.map_map]
        apply List.map_congr_left
        intro pi _
        by_cases same : pi.packID = ci.packBlobID <;> simp [same,PackInfo.count]
      refine ⟨ids ▸ grouped.nodup,fun id => ?_,fun p member => ?_⟩
      · rw [ids]
        by_cases same : id = ci.packBlobID
        · subst same
          simp only [there,accepted,true_and,true_iff]
          exact ⟨ci,by simp,rfl⟩
        · rw [grouped.mem]
          simp [Ne.symm same]
      · obtain ⟨pi,inside,rfl⟩ := List.mem_map.mp member
        have before := grouped.entry pi inside
        by_cases same : pi.packID = ci.packBlobID
        · simp only [same,if_true] at before ⊢
          rw [before,PackInfo.count_of _ _ rfl]
          exact congrArg _ (filter_append_own rfl).symm
        · simp only [same,if_false]
          rw [filter_append_other (Ne.symm same)]
          exact before
    next unknown =>
      have absent : ci.packBlobID ∉ packUsage.map PackInfo.packID := by simpa [List.any_eq_true] using unknown
      have before : l.filter (fun i => i.packBlobID = ci.packBlobID) = [] := by
        rw [List.filter_eq_nil_iff]
        intro i member same
        exact absent ((grouped.mem _).mpr ⟨accepted,i,member,by simpa using same⟩)
      have fresh : PackInfo.count options ⟨[],0,0,[]⟩ ci =
          PackInfo.of options ci.packBlobID ((l ++ [ci]).filter fun i => i.packBlobID = ci.packBlobID) := by
        rw [filter_append_own rfl,before,← PackInfo.count_of _ _ rfl]
        simp [PackInfo.count,PackInfo.of]
      refine ⟨?_,fun id => ?_,fun p member => ?_⟩
      · rw [List.map_append,List.nodup_append]
        refine ⟨grouped.nodup,by simp,?_⟩
        rintro id member _ last rfl
        have same : id = ci.packBlobID := by simpa [PackInfo.count] using last
        exact absent (same ▸ member)
      · rw [List.map_append,List.mem_append,grouped.mem]
        by_cases same : id = ci.packBlobID
        · subst same
          simp [PackInfo.count,accepted]
        · simp [PackInfo.count,same,Ne.symm same]
      · rcases List.mem_append.mp member with old | last
        · rw [filter_append_other]
          · exact grouped.entry p old
          · intro same
            exact absent (same ▸ List.mem_map_of_mem old)
        · rw [List.mem_singleton.mp last]
          exact fresh

/-- The loop over contents groups them by their packs. -/
theorem grouped_foldl (options : IteratePackOptions) (l : List Info) :
    Grouped options l (l.foldl (countContent options) []) := by
  induction l using List.reverseRecOn with
  | nil => exact ⟨by simp,by simp,by simp⟩
  | append_singleton l ci ih =>
    rw [List.foldl_append]
    exact ih.countContent ci

end Packs

namespace WriteManager

/-- An iteration delivers each content of the range once, as a lookup answers, exactly
where all contents of the range are one-sided. Where all contents are, the packs that an
iteration over packs calls back with have each their contents once. -/
theorem iterate_agrees_iff (bm : WriteManager) :
    (∀ opts, Lists Info.contentID (bm.expected opts) (bm.iterate opts) ↔
      ∀ c, opts.resolved.range.Contains c = true → bm.OneSided opts.includeDeleted c) ∧
    ∀ options : IteratePackOptions, (∀ c, bm.OneSided options.includePacksWithOnlyDeletedContent c) →
      let current (i : Info) : Bool := options.includePacksWithOnlyDeletedContent || !i.deleted
      ((bm.IteratePacks options).map PackInfo.packID).Nodup ∧
      (∀ id, id ∈ (bm.IteratePacks options).map PackInfo.packID ↔ options.matchesBlob id = true ∧
        ∃ c, ∃ i ∈ bm.ContentInfo c, current i ∧ i.packBlobID = id) ∧
      ∀ p ∈ bm.IteratePacks options, ∃ contents, Lists Info.contentID
        (fun c => (bm.ContentInfo c).filter fun i => current i && i.packBlobID = p.packID) contents ∧
        p = PackInfo.of options p.packID contents := by
  have agrees (opts : IterateOptions) : Lists Info.contentID (bm.expected opts) (bm.iterate opts) ↔
      ∀ c, opts.resolved.range.Contains c = true → bm.OneSided opts.includeDeleted c := by
    rw [lists_iff]
    · exact forall_congr' fun c => iterate_filter_iff bm opts c
    · intro c i found
      unfold expected at found
      split at found
      · exact ContentInfo_contentID (Option.filter_eq_some_iff.mp found).1
      · contradiction
  refine ⟨agrees,fun options oneSided => ?_⟩
  have listed := (agrees ⟨options.includePacksWithOnlyDeletedContent,⟨[],[]⟩⟩).mpr fun c _ => oneSided c
  have all (c : ID) : bm.expected ⟨options.includePacksWithOnlyDeletedContent,⟨[],[]⟩⟩ c =
      (bm.ContentInfo c).filter fun i => options.includePacksWithOnlyDeletedContent || !i.deleted := by
    simp [expected,IterateOptions.resolved,AllIDs_contains]
  rw [funext all] at listed
  have grouped := grouped_foldl options (bm.iterate ⟨options.includePacksWithOnlyDeletedContent,⟨[],[]⟩⟩)
  refine ⟨grouped.nodup,fun id => ?_,fun p member => ⟨_,?_,grouped.entry p member⟩⟩
  · refine (grouped.mem id).trans (and_congr_right fun _ => ⟨?_,?_⟩)
    · rintro ⟨i,member,own⟩
      obtain ⟨found,kept⟩ := Option.filter_eq_some_iff.mp ((listed.mem i).mp member)
      exact ⟨i.contentID,i,found,kept,own⟩
    · rintro ⟨c,i,found,kept,own⟩
      refine ⟨i,(listed.mem i).mpr (Option.filter_eq_some_iff.mpr ⟨?_,kept⟩),own⟩
      rw [ContentInfo_contentID found]
      exact found
  · have fewer := listed.filter fun i => decide (i.packBlobID = p.packID)
    simpa only [Option.filter_filter] using fewer

/-- Deleting a committed content makes an iteration deliver the deletion and the
committed entry. -/
theorem iterate_delivers_twice : ∃ s, run (Machine.step plainCodec)
      (Machine.initial (NewWriteManager 0 [committedContent] 0 fun _ => none))
      [.begin (.DeleteContent ⟨0,[1]⟩),.run 0 (clock 10 [])] = some s ∧
    (s.bm.iterate ⟨true,AllIDs⟩).map Info.contentID = [⟨0,[1]⟩,⟨0,[1]⟩] ∧
    ¬Lists Info.contentID (s.bm.expected ⟨true,AllIDs⟩) (s.bm.iterate ⟨true,AllIDs⟩) := by
  have traced : (run (Machine.step plainCodec)
      (Machine.initial (NewWriteManager 0 [committedContent] 0 fun _ => none))
      [.begin (.DeleteContent ⟨0,[1]⟩),.run 0 (clock 10 [])]).map
      (fun s => (s.bm.iterate ⟨true,AllIDs⟩).map Info.contentID) = some [⟨0,[1]⟩,⟨0,[1]⟩] := by decide
  obtain ⟨s,reached,twice⟩ := Option.map_eq_some_iff.mp traced
  refine ⟨s,reached,twice,fun lists => ?_⟩
  have nodup := lists.nodup
  rw [twice] at nodup
  simp at nodup

end WriteManager

end Vbe.Content
