import Vbe.Content.Packs

/-! The changes made under the lock by retries and flushes, one pack at a time, and
what each of them keeps. The loops of the source are sequences of such changes. -/
namespace Vbe.Content
open Vbe.Index

namespace WriteManager

/-- One change: a failed pack is retried, a pending pack is finished, the index
being built is committed, or only the flags of a flush change. -/
inductive Locked (env : Env) : WriteManager → WriteManager → Prop
  | retried (bm : WriteManager) (pp : PendingPackInfo) : pp ∈ bm.failedPacks →
      Locked env bm (bm.writePackAndAddToIndex env pp).1
  | finished (bm : WriteManager) (pp : PendingPackInfo) : pp ∈ bm.pendingPacks →
      Locked env bm ((bm.startWriting pp).writePackAndAddToIndex env pp).1
  | committed (bm : WriteManager) : Locked env bm {bm with
      committed := bm.committed ++ [bm.packIndexBuilder]
      packIndexBuilder := Builder.empty}
  | flags (bm : WriteManager) (flushing : Bool) (after : Int) : Locked env bm {bm with
      flushing := flushing
      flushPackIndexesAfter := after}

abbrev LockedSteps (env : Env) : WriteManager → WriteManager → Prop := Relation.ReflTransGen (Locked env)

section Single
variable {env : Env} {bm : WriteManager} {pp : PendingPackInfo}

theorem WellFormed.names_pending (wf : bm.WellFormed) : (bm.pendingPacks.map PendingPackInfo.packBlobID).Nodup := by
  have names := wf.names
  rw [packs,List.map_append,List.map_append] at names
  exact (List.nodup_append.mp (List.nodup_append.mp names).1).1

theorem WellFormed.names_failed (wf : bm.WellFormed) : (bm.failedPacks.map PendingPackInfo.packBlobID).Nodup := by
  have names := wf.names
  rw [packs,List.map_append,List.map_append] at names
  exact (List.nodup_append.mp names).2.1

theorem WellFormed.apart_of_failed (wf : bm.WellFormed) (member : pp ∈ bm.failedPacks) :
    ∀ p ∈ bm.writingPacks, p.packBlobID ≠ pp.packBlobID := by
  have names := wf.names
  rw [packs,List.map_append,List.map_append] at names
  intro p there same
  exact (List.nodup_append.mp names).2.2 _ (List.mem_append.mpr (Or.inr (List.mem_map_of_mem there)))
    _ (List.mem_map_of_mem member) same

theorem WellFormed.apart_of_pending (wf : bm.WellFormed) (member : pp ∈ bm.pendingPacks) :
    (∀ p ∈ bm.writingPacks, p.packBlobID ≠ pp.packBlobID) ∧ ∀ p ∈ bm.failedPacks, p.packBlobID ≠ pp.packBlobID := by
  have names := wf.names
  rw [packs,List.map_append,List.map_append] at names
  obtain ⟨left,_,outer⟩ := List.nodup_append.mp names
  constructor
  · intro p there same
    exact (List.nodup_append.mp left).2.2 _ (List.mem_map_of_mem member) _ (List.mem_map_of_mem there) same.symm
  · intro p there same
    exact outer _ (List.mem_append.mpr (Or.inl (List.mem_map_of_mem member))) _ (List.mem_map_of_mem there) same.symm

/-- A retry takes its pack out of the failed ones, to the index or back to their end. -/
theorem retried_spec (env : Env) (wf : bm.WellFormed) {before after : List PendingPackInfo}
    (split : bm.failedPacks = before ++ pp :: after) :
    (∃ blobs built pp', PreparedFrom pp pp' ∧ StoredAs bm.blobs pp' blobs ∧ Indexed bm.packIndexBuilder pp built ∧
      bm.writePackAndAddToIndex env pp =
        ({bm with failedPacks := before ++ after, packIndexBuilder := built, blobs := blobs},true)) ∨
    (∃ pp', PreparedFrom pp pp' ∧ (env.upload pp.packBlobID).stored = false ∧
      bm.writePackAndAddToIndex env pp = ({bm with failedPacks := before ++ after ++ [pp']},false)) := by
  have writing : removePendingPack bm.writingPacks pp = bm.writingPacks :=
    removePendingPack_absent (wf.apart_of_failed (by rw [split]; simp))
  have failed : removePendingPack bm.failedPacks pp = before ++ after := by
    have names := wf.names_failed
    rw [split] at names ⊢
    exact removePendingPack_split names rfl
  have spec := writePackAndAddToIndex_spec env bm pp
  rw [writing,failed] at spec
  exact spec

/-- Finishing a pack takes it out of the pending ones, to the index or to the failed
ones. -/
theorem finished_spec (env : Env) (wf : bm.WellFormed) {before after : List PendingPackInfo}
    (split : bm.pendingPacks = before ++ pp :: after) :
    (∃ blobs built pp', PreparedFrom pp pp' ∧ StoredAs bm.blobs pp' blobs ∧ Indexed bm.packIndexBuilder pp built ∧
      (bm.startWriting pp).writePackAndAddToIndex env pp =
        ({bm with pendingPacks := before ++ after, packIndexBuilder := built, blobs := blobs},true)) ∨
    (∃ pp', PreparedFrom pp pp' ∧ (env.upload pp.packBlobID).stored = false ∧
      (bm.startWriting pp).writePackAndAddToIndex env pp =
        ({bm with pendingPacks := before ++ after, failedPacks := bm.failedPacks ++ [pp']},false)) := by
  have member : pp ∈ bm.pendingPacks := by simp [split]
  obtain ⟨notWriting,notFailed⟩ := wf.apart_of_pending member
  have pending : removePendingPack bm.pendingPacks pp = before ++ after := by
    have names := wf.names_pending
    rw [split] at names ⊢
    exact removePendingPack_split names rfl
  have writing : removePendingPack (bm.writingPacks ++ [pp]) pp = bm.writingPacks := by
    unfold removePendingPack
    rw [List.filter_append,show bm.writingPacks.filter _ = bm.writingPacks from removePendingPack_absent notWriting]
    simp
  have failed : removePendingPack bm.failedPacks pp = bm.failedPacks := removePendingPack_absent notFailed
  have spec := writePackAndAddToIndex_spec env (bm.startWriting pp) pp
  unfold startWriting at spec ⊢
  dsimp only at spec ⊢
  rw [pending,writing,failed] at spec
  rw [pending]
  exact spec

end Single

section Kept
variable {env : Env} {bm bm' : WriteManager}

/-- What no change touches. -/
structure SameSurroundings (bm bm' : WriteManager) : Prop where
  writing : bm'.writingPacks = bm.writingPacks
  deletionWatermark : bm'.deletionWatermark = bm.deletionWatermark
  disableIndexFlushCount : bm'.disableIndexFlushCount = bm.disableIndexFlushCount

theorem Locked.surroundings (locked : Locked env bm bm') (wf : bm.WellFormed) : SameSurroundings bm bm' := by
  cases locked with
  | retried pp member =>
    obtain ⟨before,after,split⟩ := List.append_of_mem member
    rcases retried_spec env wf split with ⟨blobs,built,_,_,_,_,done⟩ | ⟨pp',_,_,done⟩ <;> rw [done] <;> exact ⟨rfl,rfl,rfl⟩
  | finished pp member =>
    obtain ⟨before,after,split⟩ := List.append_of_mem member
    rcases finished_spec env wf split with ⟨blobs,built,_,_,_,_,done⟩ | ⟨pp',_,_,done⟩ <;> rw [done] <;> exact ⟨rfl,rfl,rfl⟩
  | committed => exact ⟨rfl,rfl,rfl⟩
  | flags => exact ⟨rfl,rfl,rfl⟩

/-- The packs in memory afterwards were there before, with the same keys. -/
theorem Locked.keys (locked : Locked env bm bm') (wf : bm.WellFormed) :
    (bm'.pendingPacks.map PendingPackInfo.key).Sublist (bm.pendingPacks.map PendingPackInfo.key) ∧
    (bm'.packs.map PendingPackInfo.key).Subperm (bm.packs.map PendingPackInfo.key) := by
  cases locked with
  | retried pp member =>
    obtain ⟨before,after,split⟩ := List.append_of_mem member
    rcases retried_spec env wf split with ⟨blobs,built,_,_,_,_,done⟩ | ⟨pp',prepared,_,done⟩
    · rw [done]
      refine ⟨List.Sublist.refl _,List.Sublist.subperm (List.Sublist.map _ ?_)⟩
      simp only [packs,split]
      exact List.Sublist.append_left (List.Sublist.append_left (List.sublist_cons_self _ _) _) _
    · rw [done]
      refine ⟨List.Sublist.refl _,List.Perm.subperm ?_⟩
      simp only [packs,split,List.map_append,List.map_cons,List.map_nil,prepared.key]
      refine List.Perm.append_left _ ?_
      rw [List.append_assoc]
      exact List.Perm.append_left _ (List.perm_append_singleton _ _)
  | finished pp member =>
    obtain ⟨before,after,split⟩ := List.append_of_mem member
    rcases finished_spec env wf split with ⟨blobs,built,_,_,_,_,done⟩ | ⟨pp',prepared,_,done⟩
    · rw [done,split]
      have sub : (before ++ after).Sublist (before ++ pp :: after) :=
        List.Sublist.append_left (List.sublist_cons_self _ _) _
      refine ⟨sub.map _,List.Sublist.subperm (List.Sublist.map _ ?_)⟩
      simp only [packs,split,List.append_assoc _ bm.writingPacks]
      exact sub.append_right _
    · rw [done,split]
      have sub : (before ++ after).Sublist (before ++ pp :: after) :=
        List.Sublist.append_left (List.sublist_cons_self _ _) _
      refine ⟨sub.map _,List.Perm.subperm ?_⟩
      simp only [packs,split,List.map_append,List.map_cons,List.map_nil,prepared.key,List.append_assoc,List.cons_append]
      refine List.Perm.append_left _ ?_
      simpa only [List.append_assoc] using List.perm_append_singleton pp.key (after.map PendingPackInfo.key
        ++ bm.writingPacks.map PendingPackInfo.key ++ bm.failedPacks.map PendingPackInfo.key)
  | committed => exact ⟨List.Sublist.refl _,List.Subperm.refl _⟩
  | flags => exact ⟨List.Sublist.refl _,List.Subperm.refl _⟩

theorem Locked.wellFormed (locked : Locked env bm bm') (wf : bm.WellFormed) : bm'.WellFormed :=
  wf.of_keys (locked.keys wf).1 (locked.keys wf).2

/-- Content by content, a change is at most one move. -/
theorem Locked.layers (locked : Locked env bm bm') (wf : bm.WellFormed) (c : ID) {mayFail : Prop}
    (fails : ∀ pp ∈ bm.packs, pp.currentPackItems.get? c ≠ none → (env.upload pp.packBlobID).stored = false → mayFail) :
    Layers.Moves mayFail (bm.layers c) (bm'.layers c) := by
  cases locked with
  | retried pp member =>
    have inside : pp ∈ bm.packs := List.mem_append.mpr (Or.inr member)
    obtain ⟨before,after,split⟩ := List.append_of_mem member
    rcases retried_spec env wf split with ⟨blobs,built,_,_,_,indexed,done⟩ | ⟨pp',prepared,refused,done⟩
    · rw [done]
      cases found : pp.currentPackItems.get? c with
      | none =>
        have same : ({bm with failedPacks := before ++ after, packIndexBuilder := built, blobs := blobs} :
            WriteManager).layers c = bm.layers c := by
          simp [WriteManager.layers,split,entriesOf_cons,found,indexed c]
        rw [same]
      | some x =>
        refine Relation.ReflTransGen.single ?_
        have move : Layers.Move mayFail (bm.layers c) _ := .retried (bm.layers c) (entriesOf before c) x (entriesOf after c)
          (by simp [WriteManager.layers,split,entriesOf_cons,found])
        simpa [WriteManager.layers,indexed c,found] using move
    · rw [done]
      cases found : pp.currentPackItems.get? c with
      | none =>
        have same : ({bm with failedPacks := before ++ after ++ [pp']} : WriteManager).layers c =
            bm.layers c := by
          simp [WriteManager.layers,split,entriesOf_cons,found,prepared.items]
        rw [same]
      | some x =>
        refine Relation.ReflTransGen.single ?_
        have move := Layers.Move.retryFailed (bm.layers c) (entriesOf before c) x (entriesOf after c)
          (fails pp inside (by simp [found]) refused) (by simp [WriteManager.layers,split,entriesOf_cons,found])
        simpa [WriteManager.layers,entriesOf_cons,found,prepared.items] using move
  | finished pp member =>
    have inside : pp ∈ bm.packs := List.mem_append.mpr (Or.inl (List.mem_append.mpr (Or.inl member)))
    obtain ⟨before,after,split⟩ := List.append_of_mem member
    rcases finished_spec env wf split with ⟨blobs,built,_,_,_,indexed,done⟩ | ⟨pp',prepared,refused,done⟩
    · rw [done]
      cases found : pp.currentPackItems.get? c with
      | none =>
        have same : ({bm with pendingPacks := before ++ after, packIndexBuilder := built, blobs := blobs} :
            WriteManager).layers c = bm.layers c := by
          simp [WriteManager.layers,split,entriesOf_cons,found,indexed c]
        rw [same]
      | some x =>
        have alone := wf.pending_alone split (wf.placed pp inside c x found)
        rw [entriesOf_append,List.append_eq_nil_iff] at alone
        refine Relation.ReflTransGen.single ?_
        have move : Layers.Move mayFail (bm.layers c) _ := .finished (bm.layers c) x
          (by simp [WriteManager.layers,split,entriesOf_cons,found,alone])
        simpa [WriteManager.layers,indexed c,found,alone] using move
    · rw [done]
      cases found : pp.currentPackItems.get? c with
      | none =>
        have same : ({bm with pendingPacks := before ++ after, failedPacks := bm.failedPacks ++ [pp']} :
            WriteManager).layers c = bm.layers c := by
          simp [WriteManager.layers,split,entriesOf_cons,found,prepared.items]
        rw [same]
      | some x =>
        have alone := wf.pending_alone split (wf.placed pp inside c x found)
        rw [entriesOf_append,List.append_eq_nil_iff] at alone
        refine Relation.ReflTransGen.single ?_
        have move := Layers.Move.finishFailed (bm.layers c) x (fails pp inside (by simp [found]) refused)
          (by simp [WriteManager.layers,split,entriesOf_cons,found,alone])
        simpa [WriteManager.layers,entriesOf_cons,found,prepared.items,alone] using move
  | committed =>
    cases found : bm.packIndexBuilder.get? c with
    | none =>
      have same : ({bm with committed := bm.committed ++ [bm.packIndexBuilder], packIndexBuilder := Builder.empty} :
          WriteManager).layers c = bm.layers c := by
        simp [WriteManager.layers,mergedInfo_append,found]
      rw [same]
    | some x =>
      refine Relation.ReflTransGen.single ?_
      have move : Layers.Move mayFail (bm.layers c) _ := .committed (bm.layers c) x (by simp [WriteManager.layers,found])
      simpa [WriteManager.layers,mergedInfo_append,found] using move
  | flags => exact Relation.ReflTransGen.refl

/-- Live entries outside the packs in memory point to stored packs, and pending
packs and packs that have contents have data, so that storing them makes a blob. -/
structure Backed (bm : WriteManager) : Prop where
  pending : ∀ pp ∈ bm.pendingPacks, pp.currentPackData ≠ []
  built : ∀ c i, bm.packIndexBuilder.get? c = some i → i.deleted = false → bm.blobs i.packBlobID ≠ none
  committed : ∀ b ∈ bm.committed, ∀ c i, b.get? c = some i → i.deleted = false → bm.blobs i.packBlobID ≠ none
  data : ∀ pp ∈ bm.packs, ∀ c i, pp.currentPackItems.get? c = some i → i.packBlobID = pp.packBlobID →
    pp.currentPackData ≠ []

/-- Indexing a stored pack keeps the index backed. -/
theorem Backed.indexed (backed : bm.Backed) (wf : bm.WellFormed) {pp pp' : PendingPackInfo} (member : pp ∈ bm.packs)
    (prepared : PreparedFrom pp pp') {blobs : BlobID → Option Bytes} (stored : StoredAs bm.blobs pp' blobs)
    {built : Builder} (indexed : Indexed bm.packIndexBuilder pp built) {c : ID} {i : Info}
    (found : built.get? c = some i) (live : i.deleted = false) : blobs i.packBlobID ≠ none := by
  have old : bm.packIndexBuilder.get? c = some i → blobs i.packBlobID ≠ none :=
    fun there => stored.grows (backed.built c i there live)
  rw [indexed c] at found
  cases entry : pp.currentPackItems.get? c with
  | none =>
    rw [entry] at found
    exact old found
  | some x =>
    rw [entry] at found
    have fresh : x = i → blobs i.packBlobID ≠ none := by
      rintro rfl
      have own := wf.own pp member c x entry live
      rcases stored with ⟨empty,_⟩ | updated
      · exact absurd empty (prepared.data_ne entry own (backed.data pp member c x entry own))
      · rw [updated,own,← prepared.name]
        simp
    cases former : bm.packIndexBuilder.get? c with
    | none =>
      rw [former] at found
      exact fresh (Option.some.inj found)
    | some o =>
      rw [former] at found
      rcases winner_some o x with new | kept
      · exact fresh (new.symm.trans (Option.some.inj found))
      · refine old ?_
        rw [former]
        exact (congrArg some kept.symm).trans found

theorem Locked.backed (locked : Locked env bm bm') (wf : bm.WellFormed) (backed : bm.Backed) : bm'.Backed := by
  cases locked with
  | retried pp member =>
    have inside : pp ∈ bm.packs := List.mem_append.mpr (Or.inr member)
    obtain ⟨before,after,split⟩ := List.append_of_mem member
    rcases retried_spec env wf split with ⟨blobs,built,pp',prepared,stored,indexed,done⟩ | ⟨pp',prepared,_,done⟩
    · rw [done]
      refine ⟨backed.pending,fun c i => backed.indexed wf inside prepared stored indexed,
        fun b there c i found live => stored.grows (backed.committed b there c i found live),fun qq there => ?_⟩
      refine backed.data qq ?_
      simp only [packs,split,List.mem_append,List.mem_cons] at there ⊢
      tauto
    · rw [done]
      refine ⟨backed.pending,backed.built,backed.committed,fun qq there => ?_⟩
      simp only [packs,List.mem_append,List.mem_singleton] at there
      by_cases last : qq = pp'
      · exact last ▸ prepared.backed (backed.data pp inside)
      · refine backed.data qq ?_
        simp only [packs,split,List.mem_append,List.mem_cons]
        tauto
  | finished pp member =>
    have inside : pp ∈ bm.packs := List.mem_append.mpr (Or.inl (List.mem_append.mpr (Or.inl member)))
    obtain ⟨before,after,split⟩ := List.append_of_mem member
    have rest : ∀ qq ∈ before ++ after, qq.currentPackData ≠ [] := by
      intro qq there
      refine backed.pending qq ?_
      simp only [split,List.mem_append,List.mem_cons] at there ⊢
      tauto
    rcases finished_spec env wf split with ⟨blobs,built,pp',prepared,stored,indexed,done⟩ | ⟨pp',prepared,_,done⟩
    · rw [done]
      refine ⟨rest,fun c i => backed.indexed wf inside prepared stored indexed,
        fun b there c i found live => stored.grows (backed.committed b there c i found live),fun qq there => ?_⟩
      refine backed.data qq ?_
      simp only [packs,split,List.mem_append,List.mem_cons] at there ⊢
      tauto
    · rw [done]
      refine ⟨rest,backed.built,backed.committed,fun qq there => ?_⟩
      simp only [packs,List.mem_append,List.mem_singleton] at there
      by_cases last : qq = pp'
      · exact last ▸ prepared.backed (backed.data pp inside)
      · refine backed.data qq ?_
        simp only [packs,split,List.mem_append,List.mem_cons]
        tauto
  | committed =>
    refine ⟨backed.pending,fun c i found => by simp at found,fun b there c i found live => ?_,backed.data⟩
    rcases List.mem_append.mp there with old | new
    · exact backed.committed b old c i found live
    · cases List.mem_singleton.mp new
      exact backed.built c i found live
  | flags => exact ⟨backed.pending,backed.built,backed.committed,backed.data⟩

theorem Locked.grows (locked : Locked env bm bm') (wf : bm.WellFormed) {name : BlobID} (there : bm.blobs name ≠ none) :
    bm'.blobs name ≠ none := by
  cases locked with
  | retried pp member =>
    obtain ⟨before,after,split⟩ := List.append_of_mem member
    rcases retried_spec env wf split with ⟨blobs,built,_,_,stored,_,done⟩ | ⟨pp',_,_,done⟩ <;> rw [done]
    · exact stored.grows there
    · exact there
  | finished pp member =>
    obtain ⟨before,after,split⟩ := List.append_of_mem member
    rcases finished_spec env wf split with ⟨blobs,built,_,_,stored,_,done⟩ | ⟨pp',_,_,done⟩ <;> rw [done]
    · exact stored.grows there
    · exact there
  | committed => exact there
  | flags => exact there

section Steps

theorem LockedSteps.wellFormed (steps : LockedSteps env bm bm') (wf : bm.WellFormed) : bm'.WellFormed := by
  induction steps with
  | refl => exact wf
  | tail _ locked ih => exact locked.wellFormed ih

theorem LockedSteps.surroundings (steps : LockedSteps env bm bm') (wf : bm.WellFormed) : SameSurroundings bm bm' := by
  induction steps with
  | refl => exact ⟨rfl,rfl,rfl⟩
  | tail steps locked ih =>
    have last := locked.surroundings (LockedSteps.wellFormed steps wf)
    exact ⟨last.writing.trans ih.writing,last.deletionWatermark.trans ih.deletionWatermark,
      last.disableIndexFlushCount.trans ih.disableIndexFlushCount⟩

theorem LockedSteps.backed (steps : LockedSteps env bm bm') (wf : bm.WellFormed) (backed : bm.Backed) : bm'.Backed := by
  induction steps with
  | refl => exact backed
  | tail steps locked ih => exact locked.backed (LockedSteps.wellFormed steps wf) ih

theorem LockedSteps.grows (steps : LockedSteps env bm bm') (wf : bm.WellFormed) {name : BlobID}
    (there : bm.blobs name ≠ none) : bm'.blobs name ≠ none := by
  induction steps with
  | refl => exact there
  | tail steps locked ih => exact locked.grows (LockedSteps.wellFormed steps wf) ih

theorem LockedSteps.keys (steps : LockedSteps env bm bm') (wf : bm.WellFormed) :
    (bm'.packs.map PendingPackInfo.key).Subperm (bm.packs.map PendingPackInfo.key) := by
  induction steps with
  | refl => exact List.Subperm.refl _
  | tail steps locked ih => exact (locked.keys (LockedSteps.wellFormed steps wf)).2.trans ih

/-- Content by content, a sequence of changes is a sequence of moves. -/
theorem LockedSteps.layers (steps : LockedSteps env bm bm') (wf : bm.WellFormed) (c : ID) {mayFail : Prop}
    (fails : ∀ pp ∈ bm.packs, pp.currentPackItems.get? c ≠ none → (env.upload pp.packBlobID).stored = false → mayFail) :
    Layers.Moves mayFail (bm.layers c) (bm'.layers c) := by
  induction steps with
  | refl => exact Relation.ReflTransGen.refl
  | tail steps locked ih =>
    refine ih.trans (locked.layers (LockedSteps.wellFormed steps wf) c ?_)
    intro pp member holds refused
    obtain ⟨qq,there,same⟩ := List.mem_map.mp
      ((LockedSteps.keys steps wf).subset (List.mem_map_of_mem (f := PendingPackInfo.key) member))
    simp only [PendingPackInfo.key,Prod.mk.injEq] at same
    refine fails qq there ?_ ?_
    · rw [same.2.2]
      exact holds
    · rw [same.2.1]
      exact refused

end Steps

theorem Locked.blobs_other (locked : Locked env bm bm') (wf : bm.WellFormed) {name : BlobID}
    (other : ∀ pp ∈ bm.packs, pp.packBlobID ≠ name) : bm'.blobs name = bm.blobs name := by
  cases locked with
  | retried pp member =>
    have differs := other pp (List.mem_append.mpr (Or.inr member))
    obtain ⟨before,after,split⟩ := List.append_of_mem member
    rcases retried_spec env wf split with ⟨blobs,built,_,prepared,stored,_,done⟩ | ⟨pp',_,_,done⟩ <;> rw [done]
    exact stored.other (prepared.name.symm ▸ differs.symm)
  | finished pp member =>
    have differs := other pp (List.mem_append.mpr (Or.inl (List.mem_append.mpr (Or.inl member))))
    obtain ⟨before,after,split⟩ := List.append_of_mem member
    rcases finished_spec env wf split with ⟨blobs,built,_,prepared,stored,_,done⟩ | ⟨pp',_,_,done⟩ <;> rw [done]
    exact stored.other (prepared.name.symm ▸ differs.symm)
  | committed => rfl
  | flags => rfl

/-- Blobs change under the names of the packs in memory only. -/
theorem LockedSteps.blobs_other (steps : LockedSteps env bm bm') (wf : bm.WellFormed) {name : BlobID}
    (other : ∀ pp ∈ bm.packs, pp.packBlobID ≠ name) : bm'.blobs name = bm.blobs name := by
  induction steps with
  | refl => rfl
  | tail steps locked ih =>
    refine (locked.blobs_other (LockedSteps.wellFormed steps wf) fun pp member => ?_).trans ih
    obtain ⟨qq,there,same⟩ := List.mem_map.mp
      ((LockedSteps.keys steps wf).subset (List.mem_map_of_mem (f := PendingPackInfo.key) member))
    simp only [PendingPackInfo.key,Prod.mk.injEq] at same
    exact same.2.1 ▸ other qq there

/-- Where nothing is refused, no pack fails. -/
theorem LockedSteps.noneFailed (steps : LockedSteps env bm bm') (wf : bm.WellFormed)
    (accepted : ∀ name, (env.upload name).stored = true) (failed : bm.failedPacks = []) : bm'.failedPacks = [] := by
  induction steps with
  | refl => exact failed
  | tail steps locked ih =>
    cases locked with
    | retried pp member => simp [ih] at member
    | finished pp member =>
      obtain ⟨before,after,split⟩ := List.append_of_mem member
      rcases finished_spec env (LockedSteps.wellFormed steps wf) split with
        ⟨blobs,built,_,_,_,_,done⟩ | ⟨pp',_,refused,_⟩
      · rw [done]
        exact ih
      · simp [accepted] at refused
    | committed => exact ih
    | flags => exact ih

section Loops

/-- The retries of a section: on success no failed pack is left. -/
theorem retryPacks_spec (env : Env) (l : List PendingPackInfo) : ∀ bm : WriteManager, bm.WellFormed → bm.failedPacks = l →
    LockedSteps env bm (retryPacks env l bm).1 ∧
    (retryPacks env l bm).1.pendingPacks = bm.pendingPacks ∧ (retryPacks env l bm).1.flushing = bm.flushing ∧
    ((retryPacks env l bm).2 = true → (retryPacks env l bm).1.failedPacks = []) := by
  induction l with
  | nil => exact fun bm _ failed => ⟨Relation.ReflTransGen.refl,rfl,rfl,fun _ => failed⟩
  | cons pp rest ih =>
    intro bm wf failed
    have step : Locked env bm _ := .retried bm pp (by rw [failed]; simp)
    have next := step.wellFormed wf
    unfold retryPacks
    have split : bm.failedPacks = [] ++ pp :: rest := by simpa using failed
    rcases retried_spec env wf split with
      ⟨blobs,built,pp',_,_,_,done⟩ | ⟨pp',_,_,done⟩
    · rw [done] at step next ⊢
      obtain ⟨steps,pending,flushing,emptied⟩ := ih _ next rfl
      exact ⟨Relation.ReflTransGen.head step steps,pending,flushing,emptied⟩
    · rw [done] at step ⊢
      exact ⟨Relation.ReflTransGen.single step,rfl,rfl,fun ok => by simp at ok⟩

theorem retryFailedPacks_none (env : Env) (failed : bm.failedPacks = []) : bm.retryFailedPacks env = (bm,true) := by
  simp [retryFailedPacks,retryPacks,failed]

theorem retryFailedPacks_spec (env : Env) (wf : bm.WellFormed) :
    LockedSteps env bm (bm.retryFailedPacks env).1 ∧
    (bm.retryFailedPacks env).1.pendingPacks = bm.pendingPacks ∧
    (bm.retryFailedPacks env).1.flushing = bm.flushing ∧
    ((bm.retryFailedPacks env).2 = true → (bm.retryFailedPacks env).1.failedPacks = []) :=
  retryPacks_spec env bm.failedPacks bm wf rfl

theorem finishPacks_spec (env : Env) (l : List PendingPackInfo) : ∀ bm : WriteManager, bm.WellFormed →
    l.Perm bm.pendingPacks →
    LockedSteps env bm (finishPacks env l bm).1 ∧
    ((finishPacks env l bm).2 = true →
      (finishPacks env l bm).1.pendingPacks = [] ∧ (finishPacks env l bm).1.failedPacks = bm.failedPacks) := by
  induction l with
  | nil => exact fun bm _ perm => ⟨Relation.ReflTransGen.refl,fun _ => ⟨(List.nil_perm.mp perm),rfl⟩⟩
  | cons pp rest ih =>
    intro bm wf perm
    have member : pp ∈ bm.pendingPacks := perm.subset (by simp)
    obtain ⟨before,after,split⟩ := List.append_of_mem member
    have remaining : rest.Perm (before ++ after) := by
      rw [split] at perm
      exact (perm.trans List.perm_middle).cons_inv
    have step : Locked env bm _ := .finished bm pp member
    have next := step.wellFormed wf
    unfold finishPacks
    rcases finished_spec env wf split with ⟨blobs,built,pp',_,_,_,done⟩ | ⟨pp',_,_,done⟩
    · rw [done] at step next ⊢
      obtain ⟨steps,emptied⟩ := ih _ next remaining
      exact ⟨Relation.ReflTransGen.head step steps,emptied⟩
    · rw [done] at step ⊢
      exact ⟨Relation.ReflTransGen.single step,fun ok => by simp at ok⟩

/-- A loop over the map visits every pending pack once. -/
theorem ordered_perm (wf : bm.WellFormed) {order : List BlobID}
    (perm : order.Perm (bm.pendingPacks.map PendingPackInfo.packBlobID)) :
    (order.filterMap fun name => bm.pendingPacks.find? (·.packBlobID = name)).Perm bm.pendingPacks := by
  refine (perm.filterMap _).trans ?_
  rw [List.filterMap_map]
  have names := wf.names_pending
  generalize bm.pendingPacks = l at names
  refine List.Perm.of_eq ?_
  have found : ∀ pp ∈ l, l.find? (·.packBlobID = pp.packBlobID) = some pp := by
    intro pp member
    obtain ⟨before,after,split⟩ := List.append_of_mem member
    rw [split,List.map_append,List.map_cons,List.nodup_append] at names
    rw [split,List.find?_append,List.find?_eq_none.mpr]
    · simp
    · intro qq there
      simpa using names.2.2 _ (List.mem_map_of_mem there) _ (by simp)
  calc l.filterMap _ = l.filterMap some := List.filterMap_congr found
    _ = l := by simp

theorem finishAllPacks_spec (env : Env) (wf : bm.WellFormed)
    (perm : env.order.Perm (bm.pendingPacks.map PendingPackInfo.packBlobID)) :
    LockedSteps env bm (bm.finishAllPacks env).1 ∧
    ((bm.finishAllPacks env).2 = true → (bm.finishAllPacks env).1.pendingPacks = [] ∧
      (bm.finishAllPacks env).1.failedPacks = bm.failedPacks) :=
  finishPacks_spec env _ bm wf (ordered_perm wf perm)

theorem flushPackIndexes_spec (env : Env) (bm : WriteManager) :
    LockedSteps env bm (bm.flushPackIndexes env).1 ∧
    (bm.flushPackIndexes env).1.pendingPacks = bm.pendingPacks ∧
    (bm.flushPackIndexes env).1.failedPacks = bm.failedPacks ∧
    ((bm.flushPackIndexes env).2 = true → bm.disableIndexFlushCount ≤ 0 →
      ∀ c, (bm.flushPackIndexes env).1.packIndexBuilder.get? c = none) := by
  unfold flushPackIndexes
  split
  next disabled => exact ⟨Relation.ReflTransGen.refl,rfl,rfl,fun _ enabled => absurd enabled (by omega)⟩
  next =>
    split
    next empty =>
      refine ⟨Relation.ReflTransGen.single (Locked.flags bm bm.flushing _),rfl,rfl,fun _ _ c => ?_⟩
      cases found : bm.packIndexBuilder.get? c with
      | none => rfl
      | some i =>
        have member := Builder.mem_infos.mpr (Builder.get?_contentID found ▸ found)
        simp [empty] at member
    next =>
      split
      · refine ⟨?_,rfl,rfl,fun _ _ c => Builder.get?_empty c⟩
        exact Relation.ReflTransGen.head (Locked.committed bm)
          (Relation.ReflTransGen.single (Locked.flags _ bm.flushing _))
      · exact ⟨Relation.ReflTransGen.refl,rfl,rfl,fun ok => by simp at ok⟩

end Loops

end Kept

end WriteManager

end Vbe.Content
