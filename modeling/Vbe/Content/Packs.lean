import Vbe.Content.Layers
import Vbe.Content.Machine
import Mathlib.Data.List.Induction

/-! What one upload does to the packs in memory, and the loops that retry failed
packs and finish pending ones. Content by content, every change is a move between
the layers. -/
namespace Vbe.Content
open Vbe.Index

section Lists

/-- What a pack is known by; uploads change only its data. -/
def PendingPackInfo.key (pp : PendingPackInfo) : BlobID × BlobID × Builder :=
  (pp.packPrefix,pp.packBlobID,pp.currentPackItems)

def entriesOf (packs : List PendingPackInfo) (c : ID) : List Info :=
  packs.filterMap fun pp => pp.currentPackItems.get? c

@[simp] theorem entriesOf_nil (c : ID) : entriesOf [] c = [] := rfl

@[simp] theorem entriesOf_append (before after : List PendingPackInfo) (c : ID) :
    entriesOf (before ++ after) c = entriesOf before c ++ entriesOf after c := List.filterMap_append

theorem entriesOf_cons (pp : PendingPackInfo) (rest : List PendingPackInfo) (c : ID) :
    entriesOf (pp :: rest) c = (pp.currentPackItems.get? c).toList ++ entriesOf rest c := by
  cases found : pp.currentPackItems.get? c <;> simp [entriesOf,found]

theorem entriesOf_singleton (pp : PendingPackInfo) (c : ID) :
    entriesOf [pp] c = (pp.currentPackItems.get? c).toList := by
  simp [entriesOf_cons]

theorem entriesOf_eq_nil {packs : List PendingPackInfo} {c : ID}
    (none : ∀ pp ∈ packs, pp.currentPackItems.get? c = none) : entriesOf packs c = [] :=
  List.filterMap_eq_nil_iff.mpr none

theorem findInPacks_eq (packs : List PendingPackInfo) (c : ID) :
    (findInPacks packs c).map Prod.snd = (entriesOf packs c).head? := by
  induction packs with
  | nil => rfl
  | cons pp rest ih =>
    rw [entriesOf_cons]
    cases found : pp.currentPackItems.get? c with
    | none => simpa [findInPacks,found] using ih
    | some i => simp [findInPacks,found]

/-- Adding packs to an index resolves their entries of a content one after the other. -/
theorem get?_addPacks (packs : List PendingPackInfo) (b : Builder) (c : ID) :
    (packs.foldl (fun overlay pp => overlay.addAll pp.currentPackItems.infos) b).get? c =
      best (entriesOf packs c) (b.get? c) := by
  induction packs generalizing b with
  | nil => rfl
  | cons pp rest ih =>
    rw [List.foldl_cons,ih,Builder.get?_addAll_infos,entriesOf_cons]
    cases pp.currentPackItems.get? c <;> rfl

theorem removePendingPack_absent {packs : List PendingPackInfo} {pp : PendingPackInfo}
    (absent : ∀ p ∈ packs, p.packBlobID ≠ pp.packBlobID) : removePendingPack packs pp = packs :=
  List.filter_eq_self.mpr fun p member => by simpa using absent p member

/-- Where names are distinct, the other packs have other names. -/
theorem names_apart {before after : List PendingPackInfo} {pp : PendingPackInfo}
    (names : ((before ++ pp :: after).map PendingPackInfo.packBlobID).Nodup) :
    ∀ qq ∈ before ++ after, qq.packBlobID ≠ pp.packBlobID := by
  rw [List.map_append,List.map_cons,List.nodup_append] at names
  obtain ⟨_,rest,apart⟩ := names
  intro qq member same
  rcases List.mem_append.mp member with first | last
  · exact apart _ (List.mem_map_of_mem first) _ (by simp) same
  · exact (List.nodup_cons.mp rest).1 (List.mem_map.mpr ⟨qq,last,same⟩)

theorem removePendingPack_split {before after : List PendingPackInfo} {pp qq : PendingPackInfo}
    (names : ((before ++ pp :: after).map PendingPackInfo.packBlobID).Nodup)
    (same : qq.packBlobID = pp.packBlobID) : removePendingPack (before ++ pp :: after) qq = before ++ after := by
  have apart := names_apart names
  have kept : ∀ p ∈ before ++ after, p.packBlobID ≠ qq.packBlobID := fun p member => same ▸ apart p member
  unfold removePendingPack
  rw [List.filter_append,List.filter_cons_of_neg (by simp [same]),← List.filter_append]
  exact removePendingPack_absent kept

/-- Replacing the pack of a name replaces one pack. -/
theorem map_replace_split {before after : List PendingPackInfo} {pp qq : PendingPackInfo}
    (names : ((before ++ pp :: after).map PendingPackInfo.packBlobID).Nodup) :
    ((before ++ pp :: after).map fun p => if p.packBlobID = pp.packBlobID then qq else p) = before ++ qq :: after := by
  have apart := names_apart names
  have keep : ∀ l : List PendingPackInfo, (∀ p ∈ l, p ∈ before ++ after) →
      l.map (fun p => if p.packBlobID = pp.packBlobID then qq else p) = l := by
    intro l inside
    refine (List.map_congr_left fun p member => ?_).trans (List.map_id l)
    simp [apart p (inside p member)]
  rw [List.map_append,List.map_cons,keep before (by simp +contextual),keep after (by simp +contextual)]
  simp

end Lists

theorem mergedInfo_append (merged : List Builder) (b : Builder) (c : ID) : mergedInfo (merged ++ [b]) c =
    match b.get? c with
    | none => mergedInfo merged c
    | some i => some (Builder.winner (mergedInfo merged c) i) := by
  unfold mergedInfo
  exact List.foldl_append.trans rfl

/-- The winner of the committed index is an entry of one of its blobs. -/
theorem mergedInfo_mem {merged : List Builder} {c : ID} {i : Info} (found : mergedInfo merged c = some i) :
    ∃ b ∈ merged, b.get? c = some i := by
  induction merged using List.reverseRecOn generalizing i with
  | nil => contradiction
  | append_singleton merged b ih =>
    rw [mergedInfo_append] at found
    have old : mergedInfo merged c = some i → ∃ d ∈ merged ++ [b], d.get? c = some i := by
      intro before
      obtain ⟨d,member,entry⟩ := ih before
      exact ⟨d,by simp [member],entry⟩
    cases entry : b.get? c with
    | none =>
      rw [entry] at found
      exact old found
    | some x =>
      rw [entry] at found
      have last : x = i → ∃ d ∈ merged ++ [b], d.get? c = some i := fun same => ⟨b,by simp,entry.trans (congrArg some same)⟩
      cases before : mergedInfo merged c with
      | none =>
        rw [before] at found
        exact last (Option.some.inj found)
      | some o =>
        rw [before] at found
        rcases winner_some o x with new | kept
        · exact last (new.symm.trans (Option.some.inj found))
        · exact old (before.trans (congrArg some (kept.symm.trans (Option.some.inj found))))

namespace WriteManager

def packs (bm : WriteManager) : List PendingPackInfo := bm.pendingPacks ++ bm.writingPacks ++ bm.failedPacks

/-- The entries that the manager has for a content. -/
def layers (bm : WriteManager) (c : ID) : Layers where
  pending := (entriesOf bm.pendingPacks c).head?
  writing := entriesOf bm.writingPacks c
  failed := entriesOf bm.failedPacks c
  built := bm.packIndexBuilder.get? c
  committed := mergedInfo bm.committed c

/-- Packs have names of their own, at most one pending pack takes contents of a
kind, and live entries belong to the pack they are in. -/
structure WellFormed (bm : WriteManager) : Prop where
  kinds : (bm.pendingPacks.map PendingPackInfo.packPrefix).Nodup
  names : (bm.packs.map PendingPackInfo.packBlobID).Nodup
  placed : ∀ pp ∈ bm.packs, ∀ c i, pp.currentPackItems.get? c = some i → packPrefixForContentID c = pp.packPrefix
  own : ∀ pp ∈ bm.packs, ∀ c i, pp.currentPackItems.get? c = some i → i.deleted = false →
    i.packBlobID = pp.packBlobID

/-- Well-formedness speaks of the keys of the packs only. -/
theorem WellFormed.of_keys {bm bm' : WriteManager} (wf : bm.WellFormed)
    (pending : (bm'.pendingPacks.map PendingPackInfo.key).Sublist (bm.pendingPacks.map PendingPackInfo.key))
    (packs : (bm'.packs.map PendingPackInfo.key).Subperm (bm.packs.map PendingPackInfo.key)) : bm'.WellFormed := by
  have kinds (l : List PendingPackInfo) : l.map PendingPackInfo.packPrefix =
      (l.map PendingPackInfo.key).map fun key => key.1 := by simp [PendingPackInfo.key]
  have names (l : List PendingPackInfo) : l.map PendingPackInfo.packBlobID =
      (l.map PendingPackInfo.key).map fun key => key.2.1 := by simp [PendingPackInfo.key]
  have old : ∀ pp ∈ bm'.packs, ∃ qq ∈ bm.packs, qq.key = pp.key := by
    intro pp member
    exact List.mem_map.mp (packs.subset (List.mem_map_of_mem member))
  refine ⟨?_,?_,?_,?_⟩
  · rw [kinds]
    exact (pending.map _).nodup (kinds _ ▸ wf.kinds)
  · obtain ⟨l,perm,sub⟩ := packs
    rw [names,← (perm.map _).nodup_iff]
    exact (sub.map _).nodup (names _ ▸ wf.names)
  · intro pp member c i found
    obtain ⟨qq,there,same⟩ := old pp member
    simp only [PendingPackInfo.key,Prod.mk.injEq] at same
    rw [← same.1]
    exact wf.placed qq there c i (same.2.2 ▸ found)
  · intro pp member c i found live
    obtain ⟨qq,there,same⟩ := old pp member
    simp only [PendingPackInfo.key,Prod.mk.injEq] at same
    rw [← same.2.1]
    exact wf.own qq there c i (same.2.2 ▸ found) live

/-- A pending pack that holds a content is the only one that does. -/
theorem WellFormed.pending_alone {bm : WriteManager} (wf : bm.WellFormed) {before after : List PendingPackInfo}
    {pp : PendingPackInfo} (split : bm.pendingPacks = before ++ pp :: after) {c : ID}
    (kind : packPrefixForContentID c = pp.packPrefix) : entriesOf (before ++ after) c = [] := by
  have kinds := wf.kinds
  rw [split,List.map_append,List.map_cons,List.nodup_append] at kinds
  apply entriesOf_eq_nil
  intro qq member
  cases found : qq.currentPackItems.get? c with
  | none => rfl
  | some i =>
    have inside : qq ∈ bm.packs := by
      simp only [packs,split,List.mem_append,List.mem_cons]
      rcases List.mem_append.mp member with first | last
      · exact Or.inl (Or.inl (Or.inl first))
      · exact Or.inl (Or.inl (Or.inr (Or.inr last)))
    have same := (wf.placed qq inside c i found).symm.trans kind
    rcases List.mem_append.mp member with first | last
    · exact absurd same (kinds.2.2 _ (List.mem_map_of_mem first) _ (by simp))
    · exact absurd (List.mem_map.mpr ⟨qq,last,same⟩) (List.nodup_cons.mp kinds.2.1).1

theorem getContent_eq (bm : WriteManager) (c : ID) :
    bm.getContent c = Layers.visible bm.deletionWatermark (bm.layers c).committed := by
  show bm.getContent c = Layers.visible bm.deletionWatermark (mergedInfo bm.committed c)
  unfold getContent Layers.visible shouldIgnore
  cases mergedInfo bm.committed c with
  | none => rfl
  | some i =>
    by_cases later : i.timestampSeconds > bm.deletionWatermark
    · cases deleted : i.deleted <;> simp [deleted,Option.filter,later,not_le.mpr later]
    · cases deleted : i.deleted <;> simp [deleted,Option.filter,later,not_lt.mp later]

/-- A lookup answers with the first entry the layers show. -/
theorem ContentInfo_eq (bm : WriteManager) (c : ID) :
    bm.ContentInfo c = (bm.layers c).answer bm.deletionWatermark := by
  have pending := findInPacks_eq bm.pendingPacks c
  have writing := findInPacks_eq bm.writingPacks c
  have committed : bm.getContent c = Layers.visible bm.deletionWatermark (mergedInfo bm.committed c) :=
    getContent_eq bm c
  unfold ContentInfo getContentInfo getOverlayContentInfo Layers.answer Layers.seen layers
  cases first : findInPacks bm.pendingPacks c with
  | some found => simp [← pending,first]
  | none =>
    rw [first] at pending
    cases second : findInPacks bm.writingPacks c with
    | some found =>
      rw [second] at writing
      obtain ⟨rest,shape⟩ := List.head?_eq_some_iff.mp writing.symm
      simp [← pending,shape]
    | none =>
      rw [second] at writing
      have empty : entriesOf bm.writingPacks c = [] := List.head?_eq_none_iff.mp writing.symm
      cases third : bm.packIndexBuilder.get? c with
      | some i => simp [← pending,empty]
      | none => cases fourth : Layers.visible bm.deletionWatermark (mergedInfo bm.committed c) <;>
          simp [← pending,empty,committed,fourth]

end WriteManager

section Upload

/-- The index a pack is uploaded with has the entries of the pack. -/
theorem get?_packFileIndex (pp : PendingPackInfo) (c : ID) :
    (Builder.empty.addAll pp.currentPackItems.infos).get? c = pp.currentPackItems.get? c := by
  rw [Builder.get?_addAll_infos]
  cases pp.currentPackItems.get? c <;> simp [Builder.winner]

/-- What preparing a pack for its upload may do to it: nothing but data is added,
unless none of its entries is in the pack itself, when all data is dropped. -/
structure PreparedFrom (pp pp' : PendingPackInfo) : Prop where
  key : pp'.key = pp.key
  data : (pp'.currentPackData = [] ∧ ∀ c i, pp.currentPackItems.get? c = some i → i.packBlobID ≠ pp.packBlobID) ∨
    ∃ suffix, pp'.currentPackData = pp.currentPackData ++ suffix

theorem PreparedFrom.name {pp pp' : PendingPackInfo} (prepared : PreparedFrom pp pp') :
    pp'.packBlobID = pp.packBlobID := congrArg (fun key => key.2.1) prepared.key

theorem PreparedFrom.items {pp pp' : PendingPackInfo} (prepared : PreparedFrom pp pp') :
    pp'.currentPackItems = pp.currentPackItems := congrArg (fun key => key.2.2) prepared.key

theorem PreparedFrom.same (pp : PendingPackInfo) : PreparedFrom pp pp := ⟨rfl,Or.inr ⟨[],by simp⟩⟩

/-- The blobs after a pack has been stored; a pack without data is not. -/
def StoredAs (blobs : BlobID → Option Bytes) (pp : PendingPackInfo) (blobs' : BlobID → Option Bytes) : Prop :=
  pp.currentPackData = [] ∧ blobs' = blobs ∨ blobs' = Function.update blobs pp.packBlobID (some pp.currentPackData)

theorem StoredAs.grows {blobs blobs' : BlobID → Option Bytes} {pp : PendingPackInfo} (stored : StoredAs blobs pp blobs')
    {name : BlobID} (there : blobs name ≠ none) : blobs' name ≠ none := by
  rcases stored with ⟨_,same⟩ | updated
  · exact same ▸ there
  · rw [updated]
    by_cases same : name = pp.packBlobID
    · simp [same]
    · simpa [Function.update_of_ne same] using there

theorem StoredAs.other {blobs blobs' : BlobID → Option Bytes} {pp : PendingPackInfo} (stored : StoredAs blobs pp blobs')
    {name : BlobID} (other : name ≠ pp.packBlobID) : blobs' name = blobs name := by
  rcases stored with ⟨_,same⟩ | updated
  · rw [same]
  · rw [updated,Function.update_of_ne other]

theorem PreparedFrom.data_ne {pp pp' : PendingPackInfo} (prepared : PreparedFrom pp pp') {c : ID} {i : Info}
    (found : pp.currentPackItems.get? c = some i) (own : i.packBlobID = pp.packBlobID)
    (data : pp.currentPackData ≠ []) : pp'.currentPackData ≠ [] := by
  rcases prepared.data with ⟨_,foreign⟩ | ⟨suffix,longer⟩
  · exact absurd own (foreign c i found)
  · rw [longer]
    exact List.append_ne_nil_of_left_ne_nil data suffix

theorem PreparedFrom.backed {pp pp' : PendingPackInfo} (prepared : PreparedFrom pp pp')
    (data : ∀ c i, pp.currentPackItems.get? c = some i → i.packBlobID = pp.packBlobID → pp.currentPackData ≠ [])
    (c : ID) (i : Info) (found : pp'.currentPackItems.get? c = some i) (own : i.packBlobID = pp'.packBlobID) :
    pp'.currentPackData ≠ [] := by
  rw [prepared.items] at found
  rw [prepared.name] at own
  exact prepared.data_ne found own (data c i found own)

theorem preparePackDataContent_spec (recovery : Bytes) (pp : PendingPackInfo) :
    PreparedFrom pp (preparePackDataContent recovery pp).1 ∧
    ∀ c, (preparePackDataContent recovery pp).2.get? c = pp.currentPackItems.get? c := by
  have index := get?_packFileIndex pp
  unfold preparePackDataContent
  dsimp only
  split
  next empty =>
    refine ⟨PreparedFrom.same pp,fun c => ?_⟩
    rw [← index c]
    cases found : (Builder.empty.addAll pp.currentPackItems.infos).get? c with
    | none => simp
    | some i =>
      have member := Builder.mem_infos.mpr (Builder.get?_contentID found ▸ found)
      simp [empty] at member
  next =>
    split
    next foreign =>
      refine ⟨⟨rfl,Or.inl ⟨rfl,fun c i found same => ?_⟩⟩,index⟩
      have member := Builder.mem_infos.mpr (Builder.get?_contentID found ▸ found)
      simp only [Bool.not_eq_true',List.any_eq_false,decide_eq_true_eq] at foreign
      exact foreign i member same
    next =>
      split
      · exact ⟨PreparedFrom.same pp,index⟩
      · exact ⟨⟨rfl,Or.inr ⟨recovery,rfl⟩⟩,index⟩

namespace WriteManager

theorem prepareAndWritePack_spec (env : Env) (bm : WriteManager) (pp : PendingPackInfo) :
    ∃ blobs pp' packFileIndex, bm.prepareAndWritePack env pp = ({bm with blobs := blobs},pp',packFileIndex) ∧
      PreparedFrom pp pp' ∧
      (packFileIndex = none → (env.upload pp.packBlobID).stored = false ∧ blobs = bm.blobs) ∧
      ∀ index, packFileIndex = some index → StoredAs bm.blobs pp' blobs ∧
        ∀ c, index.get? c = pp.currentPackItems.get? c := by
  obtain ⟨prepared,index⟩ := preparePackDataContent_spec (env.upload pp.packBlobID).recovery pp
  unfold prepareAndWritePack
  dsimp only
  split
  next empty =>
    refine ⟨bm.blobs,_,_,rfl,prepared,by simp,fun _ same => ⟨Or.inl ⟨?_,rfl⟩,Option.some.inj same ▸ index⟩⟩
    exact List.eq_nil_of_length_eq_zero empty
  next =>
    split
    · exact ⟨_,_,_,rfl,prepared,by simp,fun _ same => ⟨Or.inr rfl,Option.some.inj same ▸ index⟩⟩
    next refused => exact ⟨bm.blobs,_,_,rfl,prepared,fun _ => ⟨by simpa using refused,rfl⟩,by simp⟩

/-- The index being built after a pack has been added to it. -/
def Indexed (before : Builder) (pp : PendingPackInfo) (after : Builder) : Prop :=
  ∀ c, after.get? c =
    match pp.currentPackItems.get? c with
    | none => before.get? c
    | some i => some (Builder.winner (before.get? c) i)

theorem processWritePackResult_some (bm : WriteManager) {pp pp' : PendingPackInfo} (key : pp'.key = pp.key)
    {packFileIndex : Builder} (index : ∀ c, packFileIndex.get? c = pp.currentPackItems.get? c) :
    ∃ built, Indexed bm.packIndexBuilder pp built ∧
      bm.processWritePackResult pp' (some packFileIndex) = ({bm with
        writingPacks := removePendingPack bm.writingPacks pp
        failedPacks := removePendingPack bm.failedPacks pp
        packIndexBuilder := built},true) := by
  have name : pp'.packBlobID = pp.packBlobID := congrArg (fun key => key.2.1) key
  refine ⟨bm.packIndexBuilder.addAll packFileIndex.infos,?_,?_⟩
  · intro c
    have added := Builder.get?_addAll_infos bm.packIndexBuilder packFileIndex c
    rw [index c] at added
    exact added
  · simp [processWritePackResult,removePendingPack,name]

theorem processWritePackResult_none (bm : WriteManager) (pp pp' : PendingPackInfo) (key : pp'.key = pp.key) :
    bm.processWritePackResult pp' none = ({bm with
      writingPacks := removePendingPack bm.writingPacks pp
      failedPacks := removePendingPack bm.failedPacks pp ++ [pp']},false) := by
  have name : pp'.packBlobID = pp.packBlobID := congrArg (fun key => key.2.1) key
  simp [processWritePackResult,removePendingPack,name]

/-- A pack is uploaded and indexed, or it fails and stays as it was prepared. -/
theorem writePackAndAddToIndex_spec (env : Env) (bm : WriteManager) (pp : PendingPackInfo) :
    (∃ blobs built pp', PreparedFrom pp pp' ∧ StoredAs bm.blobs pp' blobs ∧ Indexed bm.packIndexBuilder pp built ∧
      bm.writePackAndAddToIndex env pp = ({bm with
        writingPacks := removePendingPack bm.writingPacks pp
        failedPacks := removePendingPack bm.failedPacks pp
        packIndexBuilder := built
        blobs := blobs},true)) ∨
    (∃ pp', PreparedFrom pp pp' ∧ (env.upload pp.packBlobID).stored = false ∧
      bm.writePackAndAddToIndex env pp = ({bm with
        writingPacks := removePendingPack bm.writingPacks pp
        failedPacks := removePendingPack bm.failedPacks pp ++ [pp']},false)) := by
  obtain ⟨blobs,pp',packFileIndex,written,prepared,refused,stored⟩ := prepareAndWritePack_spec env bm pp
  unfold writePackAndAddToIndex
  rw [written]
  cases packFileIndex with
  | some packFileIndex =>
    obtain ⟨as,index⟩ := stored packFileIndex rfl
    obtain ⟨built,indexed,processed⟩ := processWritePackResult_some {bm with blobs := blobs} prepared.key index
    exact Or.inl ⟨blobs,built,pp',prepared,as,indexed,processed⟩
  | none =>
    obtain ⟨failed,same⟩ := refused rfl
    subst same
    exact Or.inr ⟨pp',prepared,failed,processWritePackResult_none bm pp pp' prepared.key⟩

end WriteManager

end Upload

end Vbe.Content
