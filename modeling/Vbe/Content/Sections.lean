import Vbe.Content.Locked

/-! What the sections of the operations do: flushes are sequences of locked changes,
publishing and deleting change the pending entry of one content, and processing an
upload settles one pack that was being written. -/
namespace Vbe.Content
open Vbe.Index WriteManager

namespace Layers

def publish (v : Layers) (x : Option Info) : Layers := {v with pending := x}

def startWriting (v : Layers) : Layers :=
  {v with pending := none, writing := v.writing ++ v.pending.toList}

end Layers

section Flushing
variable {env : Env} {bm : WriteManager}

def Place.afterFlush : Option Addition → Place
  | none => .returned true
  | some a => .publish a

/-- A flush that gets to its end leaves nothing pending and, with index flushes
enabled, nothing in the index being built; failed packs stay as they are. -/
structure Flushed (bm bm' : WriteManager) : Prop where
  pending : bm'.pendingPacks = []
  failed : bm'.failedPacks = bm.failedPacks
  built : bm.disableIndexFlushCount ≤ 0 → ∀ c, bm'.packIndexBuilder.get? c = none

theorem flushFinish_spec (env : Env) (next : Option Addition) (wf : bm.WellFormed)
    (perm : env.order.Perm (bm.pendingPacks.map PendingPackInfo.packBlobID)) :
    LockedSteps env bm (flushFinish env bm next).1 ∧ (flushFinish env bm next).1.flushing = false ∧
    ((flushFinish env bm next).2 = .returned false ∨
      (flushFinish env bm next).2 = Place.afterFlush next ∧ Flushed bm (flushFinish env bm next).1) := by
  obtain ⟨steps,emptied⟩ := finishAllPacks_spec env wf perm
  unfold flushFinish
  cases finished : bm.finishAllPacks env with
  | mk bm1 ok =>
    rw [finished] at steps emptied
    have kept := steps.surroundings wf
    cases ok with
    | false => exact ⟨steps.tail (Locked.flags bm1 false _),rfl,Or.inl rfl⟩
    | true =>
      obtain ⟨pending,failed⟩ := emptied rfl
      obtain ⟨more,pending',failed',built⟩ := flushPackIndexes_spec env bm1
      dsimp only
      cases flushed : bm1.flushPackIndexes env with
      | mk bm2 ok =>
        rw [flushed] at more pending' failed' built
        have all := (steps.trans more).tail (Locked.flags bm2 false bm2.flushPackIndexesAfter)
        cases ok with
        | false => exact ⟨all,rfl,Or.inl rfl⟩
        | true =>
          refine ⟨all,rfl,Or.inr ⟨?_,pending'.trans pending,failed'.trans failed,fun enabled => ?_⟩⟩
          · cases next <;> rfl
          · exact built rfl (kept.disableIndexFlushCount ▸ enabled)

theorem flushBegin_spec (env : Env) (next : Option Addition) (wf : bm.WellFormed)
    (perm : env.order.Perm (bm.pendingPacks.map PendingPackInfo.packBlobID)) :
    LockedSteps env bm (flushBegin env bm next).1 ∧
    ((flushBegin env bm next).2 = .returned false ∧ (bm.failedPacks = [] → bm.writingPacks = []) ∨
      (flushBegin env bm next).2 = .flushWait next ∧ bm.writingPacks ≠ [] ∧
        (bm.failedPacks = [] → (flushBegin env bm next).1 = {bm with flushing := true}) ∨
      (flushBegin env bm next).2 = Place.afterFlush next ∧ bm.writingPacks = [] ∧
        ∃ bm1, LockedSteps env bm bm1 ∧ bm1.failedPacks = [] ∧ LockedSteps env bm1 (flushBegin env bm next).1 ∧
          Flushed bm1 (flushBegin env bm next).1) := by
  have first : Locked env bm {bm with flushing := true} := Locked.flags bm true _
  obtain ⟨steps,pending,_,emptied⟩ := retryFailedPacks_spec env (first.wellFormed wf)
  have none (failed : bm.failedPacks = []) : {bm with flushing := true}.retryFailedPacks env =
      ({bm with flushing := true},true) := retryFailedPacks_none env failed
  unfold flushBegin
  cases retried : {bm with flushing := true}.retryFailedPacks env with
  | mk bm1 ok =>
    rw [retried] at steps pending emptied none
    have all : LockedSteps env bm bm1 := Relation.ReflTransGen.head first steps
    have wf1 := all.wellFormed wf
    have kept := all.surroundings wf
    cases ok with
    | false => exact ⟨all.tail (Locked.flags bm1 false _),Or.inl ⟨rfl,fun failed => by simpa using none failed⟩⟩
    | true =>
      dsimp only
      split
      next idle =>
        obtain ⟨more,_,outcome⟩ := flushFinish_spec env next wf1 (pending.symm ▸ perm)
        have idle : bm.writingPacks = [] := kept.writing ▸ idle
        exact ⟨all.trans more,outcome.imp (fun error => ⟨error,fun _ => idle⟩) fun done =>
          Or.inr ⟨done.1,idle,bm1,all,emptied rfl,more,done.2⟩⟩
      next busy =>
        refine ⟨all,Or.inr (Or.inl ⟨rfl,kept.writing ▸ busy,fun failed => ?_⟩)⟩
        exact congrArg Prod.fst (none failed)

end Flushing

section Pending
variable {env : Env} {bm : WriteManager} {before after : List PendingPackInfo} {pp pp' : PendingPackInfo}

theorem updatePending_split (wf : bm.WellFormed) (split : bm.pendingPacks = before ++ pp :: after)
    (name : pp'.packBlobID = pp.packBlobID) :
    bm.updatePending pp' = {bm with pendingPacks := before ++ pp' :: after} := by
  have names := wf.names_pending
  rw [split] at names
  unfold updatePending
  rw [name,split,map_replace_split names]

/-- The entries a pack may be given: those of its kind, and its own when live. -/
def Admits (pp : PendingPackInfo) (items : Builder) : Prop :=
  ∀ c i, items.get? c = some i → packPrefixForContentID c = pp.packPrefix ∧
    (i.deleted = false → i.packBlobID = pp.packBlobID)

/-- Replaces a pending pack by one of the same name and kind. -/
def withPending (bm : WriteManager) (packs : List PendingPackInfo) : WriteManager := {bm with pendingPacks := packs}

theorem replaced_wellFormed (wf : bm.WellFormed) (split : bm.pendingPacks = before ++ pp :: after)
    (name : pp'.packBlobID = pp.packBlobID) (kind : pp'.packPrefix = pp.packPrefix)
    (admits : Admits pp pp'.currentPackItems) : (withPending bm (before ++ pp' :: after)).WellFormed := by
  have others : ∀ qq ∈ (withPending bm (before ++ pp' :: after)).packs, qq ∈ bm.packs ∨ qq = pp' := by
    intro qq member
    simp only [packs,withPending,split,List.mem_append,List.mem_cons] at member ⊢
    tauto
  refine ⟨?_,?_,?_,?_⟩
  · have kinds := wf.kinds
    rw [split] at kinds
    simpa [withPending,kind] using kinds
  · have names := wf.names
    simp only [packs,split] at names
    simpa [packs,withPending,name] using names
  · intro qq member c i found
    rcases others qq member with old | rfl
    · exact wf.placed qq old c i found
    · exact kind ▸ (admits c i found).1
  · intro qq member c i found live
    rcases others qq member with old | rfl
    · exact wf.own qq old c i found live
    · exact name ▸ (admits c i found).2 live

theorem layers_pending (wf : bm.WellFormed) (split : bm.pendingPacks = before ++ pp :: after) {c : ID}
    (kind : packPrefixForContentID c = pp.packPrefix) : (bm.layers c).pending = pp.currentPackItems.get? c := by
  have alone := wf.pending_alone split kind
  rw [entriesOf_append,List.append_eq_nil_iff] at alone
  show (entriesOf bm.pendingPacks c).head? = _
  rw [split,entriesOf_append,entriesOf_cons,alone.1,alone.2]
  cases pp.currentPackItems.get? c <;> rfl

/-- Replacing a pack changes the pending entries of its kind only. -/
theorem replaced_layers (wf : bm.WellFormed) (split : bm.pendingPacks = before ++ pp :: after)
    (name : pp'.packBlobID = pp.packBlobID) (kind : pp'.packPrefix = pp.packPrefix)
    (admits : Admits pp pp'.currentPackItems) (c : ID) :
    (withPending bm (before ++ pp' :: after)).layers c =
      if packPrefixForContentID c = pp.packPrefix then (bm.layers c).publish (pp'.currentPackItems.get? c)
      else bm.layers c := by
  split
  next same =>
    have pending : ((withPending bm (before ++ pp' :: after)).layers c).pending = pp'.currentPackItems.get? c :=
      layers_pending (replaced_wellFormed wf split name kind admits) rfl (same.trans kind.symm)
    rw [← pending]
    rfl
  next other =>
    have absent : pp.currentPackItems.get? c = none := by
      cases found : pp.currentPackItems.get? c with
      | none => rfl
      | some i => exact absurd (wf.placed pp (by simp [packs,split]) c i found) other
    have absent' : pp'.currentPackItems.get? c = none := by
      cases found : pp'.currentPackItems.get? c with
      | none => rfl
      | some i => exact absurd (admits c i found).1 other
    simp [WriteManager.layers,withPending,split,entriesOf_cons,absent,absent']

theorem replaced_backed (backed : bm.Backed) (split : bm.pendingPacks = before ++ pp :: after)
    (data : pp'.currentPackData ≠ []) : (withPending bm (before ++ pp' :: after)).Backed := by
  refine ⟨?_,backed.built,backed.committed,?_⟩
  · intro qq member
    by_cases same : qq = pp'
    · exact same ▸ data
    · refine backed.pending qq ?_
      simp only [withPending,split,List.mem_append,List.mem_cons] at member ⊢
      tauto
  · intro qq member c i found own
    by_cases same : qq = pp'
    · exact same ▸ data
    · refine backed.data qq ?_ c i found own
      simp only [packs,withPending,split,List.mem_append,List.mem_cons] at member ⊢
      tauto

/-- What asking for a pending pack gives: the same manager with the pack among its
pending ones, maybe a new pack without entries. -/
structure Provided (bm bm' : WriteManager) (packPrefix : BlobID) (pp : PendingPackInfo) : Prop where
  wellFormed : bm'.WellFormed
  backed : bm.Backed → bm'.Backed
  member : pp ∈ bm'.pendingPacks
  kind : pp.packPrefix = packPrefix
  layers : ∀ c, bm'.layers c = bm.layers c
  rest : bm' = withPending bm bm'.pendingPacks

theorem packPrefixForContentID_mem (c : ID) :
    packPrefixForContentID c ∈ [PackBlobIDPrefixRegular,PackBlobIDPrefixSpecial] := by
  unfold packPrefixForContentID
  split <;> simp

/-- New packs get names that no pack in memory or in storage has, and data. -/
structure FreshNames (env : Env) (bm : WriteManager) : Prop where
  unstored : ∀ packPrefix ∈ [PackBlobIDPrefixRegular,PackBlobIDPrefixSpecial],
    bm.blobs (newPackBlobID env packPrefix) = none
  unused : ∀ packPrefix ∈ [PackBlobIDPrefixRegular,PackBlobIDPrefixSpecial], ∀ pp ∈ bm.packs,
    pp.packBlobID ≠ newPackBlobID env packPrefix
  preamble : defaultMinPreambleLength ≤ env.preamble.length ∧ env.preamble.length ≤ defaultMaxPreambleLength

theorem FreshNames.of_possible (possible : env.Possible bm) : FreshNames env bm :=
  ⟨fun packPrefix member => (possible.1 packPrefix member).1,fun packPrefix member => (possible.1 packPrefix member).2,
    possible.2.1⟩

theorem FreshNames.later {bm1 : WriteManager} (fresh : FreshNames env bm) (wf : bm.WellFormed)
    (steps : LockedSteps env bm bm1) : FreshNames env bm1 := by
  refine ⟨fun packPrefix member => ?_,fun packPrefix member pp there => ?_,fresh.preamble⟩
  · exact (steps.blobs_other wf (fresh.unused packPrefix member)).trans (fresh.unstored packPrefix member)
  · obtain ⟨qq,inside,same⟩ := List.mem_map.mp
      ((steps.keys wf).subset (List.mem_map_of_mem (f := PendingPackInfo.key) there))
    simp only [PendingPackInfo.key,Prod.mk.injEq] at same
    exact same.2.1 ▸ fresh.unused packPrefix member qq inside

theorem getOrCreatePendingPackInfo_spec (wf : bm.WellFormed) (fresh : FreshNames env bm) (c : ID)
    {bm' : WriteManager} (done : bm.getOrCreatePendingPackInfo env (packPrefixForContentID c) = some (bm',pp)) :
    Provided bm bm' (packPrefixForContentID c) pp := by
  unfold getOrCreatePendingPackInfo at done
  cases found : bm.pendingPacks.find? (·.packPrefix = packPrefixForContentID c) with
  | some qq =>
    rw [found] at done
    cases Option.some.inj done
    have kind := List.find?_some found
    exact ⟨wf,id,List.mem_of_find?_eq_some found,by simpa using kind,fun _ => rfl,rfl⟩
  | none =>
    rw [found] at done
    dsimp only at done
    split at done
    · cases Option.some.inj done
      have unused := fresh.unused _ (packPrefixForContentID_mem c)
      have preamble := fresh.preamble.1
      have other := List.find?_eq_none.mp found
      have others : ∀ qq ∈ (withPending bm (bm.pendingPacks ++ [newPack env (packPrefixForContentID c)])).packs,
          qq ∈ bm.packs ∨ qq = newPack env (packPrefixForContentID c) := by
        intro qq member
        simp only [packs,withPending,List.mem_append,List.mem_singleton] at member ⊢
        tauto
      have empty : ∀ d, (newPack env (packPrefixForContentID c)).currentPackItems.get? d = none := by simp [newPack]
      refine ⟨⟨?_,?_,?_,?_⟩,fun backed => ⟨?_,backed.built,backed.committed,?_⟩,by simp,rfl,fun d => ?_,rfl⟩
      · rw [List.map_append,List.nodup_append]
        refine ⟨wf.kinds,by simp,?_⟩
        intro kind member last there same
        obtain ⟨qq,inside,rfl⟩ := List.mem_map.mp member
        have wanted : last = packPrefixForContentID c := by simpa [newPack] using there
        exact absurd (same.trans wanted) (by simpa using other qq inside)
      · have moved : ((bm.pendingPacks ++ [newPack env (packPrefixForContentID c)] ++ bm.writingPacks
            ++ bm.failedPacks).map PendingPackInfo.packBlobID).Perm
              (newPackBlobID env (packPrefixForContentID c) :: bm.packs.map PendingPackInfo.packBlobID) := by
          simp only [packs,List.map_append,List.map_cons,List.append_assoc,List.singleton_append]
          exact List.perm_middle
        refine moved.nodup_iff.mpr (List.nodup_cons.mpr ⟨?_,wf.names⟩)
        intro inside
        obtain ⟨qq,there,same⟩ := List.mem_map.mp inside
        exact unused qq there same
      · intro qq member d i got
        rcases others qq member with old | rfl
        · exact wf.placed qq old d i got
        · simp [empty] at got
      · intro qq member d i got
        rcases others qq member with old | rfl
        · exact wf.own qq old d i got
        · simp [empty] at got
      · intro qq member
        rcases List.mem_append.mp member with old | new
        · exact backed.pending qq old
        · rw [List.mem_singleton.mp new]
          intro nothing
          simp only [newPack] at nothing
          simp [nothing,defaultMinPreambleLength] at preamble
      · intro qq member d i got own
        rcases others qq member with old | rfl
        · exact backed.data qq old d i got own
        · simp [empty] at got
      · simp [WriteManager.layers,entriesOf_singleton,empty]
    · contradiction

end Pending

section Publishing
variable {env : Env} {bm : WriteManager}

theorem startWriting_wellFormed (wf : bm.WellFormed) {before after : List PendingPackInfo} {pp : PendingPackInfo}
    (split : bm.pendingPacks = before ++ pp :: after) :
    bm.startWriting pp = {bm with pendingPacks := before ++ after, writingPacks := bm.writingPacks ++ [pp]} ∧
    (bm.startWriting pp).WellFormed := by
  have pending : removePendingPack bm.pendingPacks pp = before ++ after := by
    have names := wf.names_pending
    rw [split] at names ⊢
    exact removePendingPack_split names rfl
  have shape : bm.startWriting pp =
      {bm with pendingPacks := before ++ after, writingPacks := bm.writingPacks ++ [pp]} := by
    rw [startWriting,pending]
  refine ⟨shape,wf.of_keys ?_ (List.Perm.subperm (List.Perm.map _ ?_))⟩
  · exact List.Sublist.map _ List.filter_sublist
  · rw [shape]
    simp only [packs,split,List.append_assoc,List.cons_append,List.nil_append]
    refine List.Perm.append_left _ ?_
    have moved : (after ++ bm.writingPacks ++ pp :: bm.failedPacks).Perm
        (pp :: (after ++ bm.writingPacks ++ bm.failedPacks)) := List.perm_middle
    simpa only [List.append_assoc] using moved

theorem startWriting_layers (wf : bm.WellFormed) {before after : List PendingPackInfo} {pp : PendingPackInfo}
    (split : bm.pendingPacks = before ++ pp :: after) (c : ID) : (bm.startWriting pp).layers c =
      if packPrefixForContentID c = pp.packPrefix then (bm.layers c).startWriting else bm.layers c := by
  rw [(startWriting_wellFormed wf split).1]
  split
  next kind =>
    have alone := wf.pending_alone split kind
    have pending := layers_pending wf split kind
    unfold Layers.startWriting
    rw [pending]
    simp [WriteManager.layers,entriesOf_singleton,alone]
  next other =>
    have absent : pp.currentPackItems.get? c = none := by
      cases found : pp.currentPackItems.get? c with
      | none => rfl
      | some i => exact absurd (wf.placed pp (by simp [packs,split]) c i found) other
    simp [WriteManager.layers,split,entriesOf_cons,absent]

theorem startWriting_backed (wf : bm.WellFormed) (backed : bm.Backed) {before after : List PendingPackInfo}
    {pp : PendingPackInfo} (split : bm.pendingPacks = before ++ pp :: after) : (bm.startWriting pp).Backed := by
  rw [(startWriting_wellFormed wf split).1]
  refine ⟨fun qq member => backed.pending qq ?_,backed.built,backed.committed,fun qq member => backed.data qq ?_⟩
  · simp only [split,List.mem_append,List.mem_cons] at member ⊢
    tauto
  · simp only [packs,split,List.mem_append,List.mem_cons] at member ⊢
    tauto

/-- What only a pending pack may have changed in. -/
structure SameExceptPending (bm bm' : WriteManager) : Prop where
  failed : bm'.failedPacks = bm.failedPacks
  flushing : bm'.flushing = bm.flushing
  deletionWatermark : bm'.deletionWatermark = bm.deletionWatermark
  disableIndexFlushCount : bm'.disableIndexFlushCount = bm.disableIndexFlushCount
  blobs : bm'.blobs = bm.blobs

/-- The pending entry of one content has been replaced. -/
structure Republished (bm bm' : WriteManager) (c : ID) (x : Option Info) : Prop where
  wellFormed : bm'.WellFormed
  backed : bm.Backed → bm'.Backed
  layers : ∀ d, bm'.layers d = if d = c then (bm.layers d).publish x else bm.layers d
  writing : bm'.writingPacks = bm.writingPacks
  same : SameExceptPending bm bm'

/-- Changing the entry of one content in a pending pack of its kind. -/
theorem republished_of_update {bm1 : WriteManager} {pp : PendingPackInfo} {c : ID} (pp' : PendingPackInfo) (x : Option Info)
    (provided : Provided bm bm1 (packPrefixForContentID c) pp) (name : pp'.packBlobID = pp.packBlobID)
    (kind : pp'.packPrefix = pp.packPrefix)
    (items : ∀ d, pp'.currentPackItems.get? d = if d = c then x else pp.currentPackItems.get? d)
    (own : ∀ i, x = some i → i.deleted = false → i.packBlobID = pp.packBlobID)
    (data : pp.currentPackData ≠ [] → pp'.currentPackData ≠ []) :
    Republished bm (bm1.updatePending pp') c x ∧
    ∃ before after, (bm1.updatePending pp').pendingPacks = before ++ pp' :: after := by
  have wf := provided.wellFormed
  obtain ⟨before,after,split⟩ := List.append_of_mem provided.member
  have member : pp ∈ bm1.packs := by simp [packs,split]
  have admits : Admits pp pp'.currentPackItems := by
    intro d i found
    rw [items d] at found
    split at found
    next same => exact ⟨same ▸ provided.kind.symm,own i found⟩
    next => exact ⟨wf.placed pp member d i found,wf.own pp member d i found⟩
  rw [updatePending_split wf split name]
  refine ⟨⟨replaced_wellFormed wf split name kind admits,fun backed => ?_,fun d => ?_,?_,?_⟩,before,after,rfl⟩
  · exact replaced_backed (provided.backed backed) split
      (data ((provided.backed backed).pending pp (by simp [split])))
  · rw [← provided.layers d]
    refine (replaced_layers wf split name kind admits d).trans ?_
    rw [items d]
    by_cases same : d = c
    · rw [if_pos same,if_pos same,if_pos (same ▸ provided.kind.symm)]
    · rw [if_neg same,if_neg same]
      split
      next kind =>
        rw [← layers_pending wf split kind]
        rfl
      next => rfl
  · rw [provided.rest]
    rfl
  · rw [provided.rest]
    exact ⟨rfl,rfl,rfl,rfl,rfl⟩

/-- A content has been published; `moved` tells whether its pack is to be written. -/
structure Published (bm bm' : WriteManager) (x : Info) (moved : Bool) : Prop where
  wellFormed : bm'.WellFormed
  backed : bm.Backed → bm'.Backed
  layers : ∀ c, bm'.layers c =
    if moved = true ∧ packPrefixForContentID c = packPrefixForContentID x.contentID then
      (if c = x.contentID then (bm.layers c).publish (some x) else bm.layers c).startWriting
    else if c = x.contentID then (bm.layers c).publish (some x) else bm.layers c
  same : SameExceptPending bm bm'

theorem newInfo_spec (env : Env) (pp : PendingPackInfo) (a : Addition) (actualComp : UInt32) (packed : Bytes) :
    (newInfo env pp a actualComp packed).contentID = a.contentID ∧
    (newInfo env pp a actualComp packed).deleted = a.isDeleted ∧
    (newInfo env pp a actualComp packed).timestampSeconds = contentWriteTime env a.previousWriteTime ∧
    (newInfo env pp a actualComp packed).packBlobID = pp.packBlobID := ⟨rfl,rfl,rfl,rfl⟩

/-- What publishing an addition makes of the manager, the pack written or not. -/
inductive Inserted (env : Env) (bm : WriteManager) (a : Addition) (actualComp : UInt32) (packed : Bytes) (x : Info) :
    WriteManager → Prop
  | kept (bm1 : WriteManager) (pp : PendingPackInfo) :
      bm.getOrCreatePendingPackInfo env (packPrefixForContentID a.contentID) = some (bm1,pp) →
      x = newInfo env pp a actualComp packed → (appendContent pp x packed).currentPackData.length < a.mp.maxPackSize →
      Inserted env bm a actualComp packed x (bm1.updatePending (appendContent pp x packed))
  | moved (bm1 : WriteManager) (pp : PendingPackInfo) :
      bm.getOrCreatePendingPackInfo env (packPrefixForContentID a.contentID) = some (bm1,pp) →
      x = newInfo env pp a actualComp packed →
      Inserted env bm a actualComp packed x
        ((bm1.updatePending (appendContent pp x packed)).startWriting (appendContent pp x packed))

/-- Publishing either fails, after some retries, or enters the new entry when no
failed pack is left. -/
theorem publishLocked_spec (wf : bm.WellFormed) (fresh : FreshNames env bm) (a : Addition) (actualComp : UInt32)
    (packed : Bytes) :
    (∃ bm1, LockedSteps env bm bm1 ∧ (bm.failedPacks = [] → bm1 = bm) ∧
      publishLocked env bm a actualComp packed = (bm1,.returned false)) ∨
    ∃ bm1 bm2 x, LockedSteps env bm bm1 ∧ (bm.failedPacks = [] → bm1 = bm) ∧
      bm1.pendingPacks = bm.pendingPacks ∧ bm1.failedPacks = [] ∧
      x.contentID = a.contentID ∧ x.deleted = a.isDeleted ∧
      x.timestampSeconds = contentWriteTime env a.previousWriteTime ∧ Inserted env bm1 a actualComp packed x bm2 ∧
      (Published bm1 bm2 x false ∧ bm2.writingPacks = bm1.writingPacks ∧
        publishLocked env bm a actualComp packed = (bm2,.returned true) ∨
      ∃ pp, Published bm1 bm2 x true ∧ bm2.writingPacks = bm1.writingPacks ++ [pp] ∧
        pp.currentPackItems.get? x.contentID = some x ∧ x.packBlobID = pp.packBlobID ∧
        publishLocked env bm a actualComp packed = (bm2,.upload a.contentID pp.packBlobID)) := by
  obtain ⟨steps,pending,_,emptied⟩ := retryFailedPacks_spec env wf
  have same : bm.failedPacks = [] → (bm.retryFailedPacks env).1 = bm :=
    fun failed => congrArg Prod.fst (retryFailedPacks_none env failed)
  unfold publishLocked
  cases retried : bm.retryFailedPacks env with
  | mk bm1 ok =>
    rw [retried] at steps pending emptied same
    have wf1 := steps.wellFormed wf
    cases ok with
    | false => exact Or.inl ⟨bm1,steps,same,rfl⟩
    | true =>
      dsimp only
      cases provided : bm1.getOrCreatePendingPackInfo env (packPrefixForContentID a.contentID) with
      | none => exact Or.inl ⟨bm1,steps,same,rfl⟩
      | some found =>
        obtain ⟨bmp,pp⟩ := found
        have asked := provided
        have provided := getOrCreatePendingPackInfo_spec wf1 (fresh.later wf steps) a.contentID provided
        obtain ⟨republished,before,after,split⟩ := republished_of_update
          (appendContent pp (newInfo env pp a actualComp packed) packed) (some (newInfo env pp a actualComp packed))
          provided rfl rfl
          (fun d => Builder.get?_set _ _ d)
          (fun i same _ => Option.some.inj same ▸ rfl) (fun data => List.append_ne_nil_of_left_ne_nil data packed)
        refine Or.inr ⟨bm1,?_⟩
        unfold insertContent
        dsimp only
        by_cases full : (appendContent pp (newInfo env pp a actualComp packed) packed).currentPackData.length ≥
            a.mp.maxPackSize
        · have started := startWriting_wellFormed republished.wellFormed split
          refine ⟨_,newInfo env pp a actualComp packed,steps,same,pending,emptied rfl,rfl,rfl,rfl,.moved bmp pp asked rfl,Or.inr
            ⟨appendContent pp (newInfo env pp a actualComp packed) packed,⟨started.2,fun backed => ?_,fun c => ?_,?_⟩,
              ?_,?_,rfl,?_⟩⟩
          · exact startWriting_backed republished.wellFormed (republished.backed backed) split
          · refine (startWriting_layers republished.wellFormed split c).trans ?_
            rw [republished.layers c]
            have kind : (appendContent pp (newInfo env pp a actualComp packed) packed).packPrefix =
                packPrefixForContentID a.contentID := provided.kind
            rw [kind]
            simp only [true_and]
            rfl
          · rw [started.1]
            exact ⟨republished.same.failed,republished.same.flushing,republished.same.deletionWatermark,
              republished.same.disableIndexFlushCount,republished.same.blobs⟩
          · rw [started.1]
            exact congrArg (· ++ _) republished.writing
          · exact Builder.get?_set_self _ _
          · simp only [full,decide_true]
        · refine ⟨_,newInfo env pp a actualComp packed,steps,same,pending,emptied rfl,rfl,rfl,rfl,
            .kept bmp pp asked rfl (not_le.mp full),Or.inl
            ⟨⟨republished.wellFormed,republished.backed,fun c => ?_,republished.same⟩,republished.writing,?_⟩⟩
          · rw [if_neg (by simp)]
            exact republished.layers c
          · simp only [full,decide_false]

end Publishing

section Deleting
variable {env : Env} {bm : WriteManager}

/-- The entry that `DeleteContent` looks at once no pending pack has a live one. -/
def Layers.deleteTarget (deletionWatermark : Int) (v : Layers) : Option Info :=
  ((v.writing.find? (!·.deleted)).or v.built).or (Layers.visible deletionWatermark v.committed)

theorem findLiveInPacks_eq (packs : List PendingPackInfo) (c : ID) :
    (findLiveInPacks packs c).map Prod.snd = (entriesOf packs c).find? (!·.deleted) := by
  induction packs with
  | nil => rfl
  | cons pp rest ih =>
    rw [entriesOf_cons]
    cases found : pp.currentPackItems.get? c with
    | none => simpa [findLiveInPacks,found] using ih
    | some i =>
      cases deleted : i.deleted with
      | true => simpa [findLiveInPacks,found,deleted] using ih
      | false => simp [findLiveInPacks,found,deleted]

theorem findLiveInPacks_some {packs : List PendingPackInfo} {c : ID} {pp : PendingPackInfo} {x : Info}
    (found : findLiveInPacks packs c = some (pp,x)) :
    pp ∈ packs ∧ pp.currentPackItems.get? c = some x ∧ x.deleted = false := by
  obtain ⟨qq,member,here⟩ := List.exists_of_findSome?_eq_some found
  split at here
  next bi entry =>
    split at here
    next live =>
      simp only [Option.some.injEq,Prod.mk.injEq] at here
      obtain ⟨rfl,rfl⟩ := here
      exact ⟨member,entry,by simpa using live⟩
    next => contradiction
  next => contradiction

/-- Entries are filed under their own identifier, wherever they are. -/
theorem contentID_of_mem_entries {c : ID} {i : Info} (member : i ∈ (bm.layers c).entries) : i.contentID = c := by
  have inPacks : ∀ packs : List PendingPackInfo, i ∈ entriesOf packs c → i.contentID = c := by
    intro packs there
    obtain ⟨pp,_,found⟩ := List.mem_filterMap.mp there
    exact Builder.get?_contentID found
  simp only [Layers.entries,WriteManager.layers,List.mem_append,Option.mem_toList] at member
  rcases member with pending | writing | failed | built | committed
  · exact inPacks _ (List.mem_of_mem_head? pending)
  · exact inPacks _ writing
  · exact inPacks _ failed
  · exact Builder.get?_contentID built
  · obtain ⟨b,_,found⟩ := mergedInfo_mem committed
    exact Builder.get?_contentID found

/-- A deletion entry for a live one, or a failure to start a session. -/
theorem deletePreexistingContent_spec (wf : bm.WellFormed) (fresh : FreshNames env bm) {ci : Info} {c : ID}
    (own : ci.contentID = c) :
    (bm.deletePreexistingContent env ci = (bm,true) ∧ ci.deleted = true) ∨
    (bm.deletePreexistingContent env ci = (bm,false) ∧ env.sessionStarted = false) ∨
    ∃ bm', bm.deletePreexistingContent env ci = (bm',true) ∧ ci.deleted = false ∧
      Republished bm bm' c (some (deletedInfo ci (contentWriteTime env ci.timestampSeconds))) := by
  subst own
  unfold deletePreexistingContent
  cases deleted : ci.deleted with
  | true => exact Or.inl ⟨by simp,rfl⟩
  | false =>
    refine Or.inr ?_
    simp only [Bool.false_eq_true,if_false]
    cases provided : bm.getOrCreatePendingPackInfo env (packPrefixForContentID ci.contentID) with
    | none =>
      refine Or.inl ⟨rfl,?_⟩
      unfold getOrCreatePendingPackInfo at provided
      split at provided
      · contradiction
      · split at provided
        · contradiction
        next refused => simpa using refused
    | some found =>
      obtain ⟨bm1,pp⟩ := found
      have provided := getOrCreatePendingPackInfo_spec wf fresh ci.contentID provided
      refine Or.inr ⟨_,rfl,trivial,(republished_of_update {pp with
        currentPackItems := pp.currentPackItems.set (deletedInfo ci (contentWriteTime env ci.timestampSeconds))} _
        provided rfl rfl ?_ ?_ id).1⟩
      · exact fun d => Builder.get?_set _ _ d
      · intro i same live
        rw [← Option.some.inj same] at live
        simp [deletedInfo] at live

/-- The three things a deletion can do. -/
theorem DeleteContent_spec (wf : bm.WellFormed) (fresh : FreshNames env bm) (c : ID) :
    (∃ bm' x, bm.DeleteContent env c = (bm',true) ∧ (bm.layers c).pending = some x ∧ x.deleted = false ∧
      Republished bm bm' c none) ∨
    (∀ x, (bm.layers c).pending = some x → x.deleted = true) ∧
      ((bm.DeleteContent env c = (bm,false) ∧
          ((bm.layers c).deleteTarget bm.deletionWatermark = none ∨ env.sessionStarted = false)) ∨
        ∃ y, (bm.layers c).deleteTarget bm.deletionWatermark = some y ∧
          ((bm.DeleteContent env c = (bm,true) ∧ y.deleted = true) ∨
          ∃ bm', bm.DeleteContent env c = (bm',true) ∧ y.deleted = false ∧
            Republished bm bm' c (some (deletedInfo y (contentWriteTime env y.timestampSeconds))))) := by
  unfold DeleteContent
  cases first : findLiveInPacks bm.pendingPacks c with
  | some found =>
    obtain ⟨pp,x⟩ := found
    obtain ⟨member,entry,live⟩ := findLiveInPacks_some first
    obtain ⟨before,after,split⟩ := List.append_of_mem member
    have kind := wf.placed pp (by simp [packs,split]) c x entry
    have provided : Provided bm bm (packPrefixForContentID c) pp := ⟨wf,id,member,kind.symm,fun _ => rfl,rfl⟩
    refine Or.inl ⟨_,x,rfl,(layers_pending wf split kind).trans entry,live,
      (republished_of_update {pp with currentPackItems := pp.currentPackItems.erase c} _
        provided rfl rfl ?_ (by simp) id).1⟩
    exact fun d => Builder.get?_erase _ _ d
  | none =>
    have pending := findLiveInPacks_eq bm.pendingPacks c
    rw [first] at pending
    have gone : ∀ x, (bm.layers c).pending = some x → x.deleted = true := by
      intro x top
      have := List.find?_eq_none.mp pending.symm x (List.mem_of_mem_head? top)
      simpa using this
    have writing := findLiveInPacks_eq bm.writingPacks c
    have outcome : ∀ y, (bm.layers c).deleteTarget bm.deletionWatermark = some y →
        bm.DeleteContent env c = bm.deletePreexistingContent env y →
        ((bm.DeleteContent env c = (bm,false) ∧
          ((bm.layers c).deleteTarget bm.deletionWatermark = none ∨ env.sessionStarted = false)) ∨
        ∃ y, (bm.layers c).deleteTarget bm.deletionWatermark = some y ∧
          ((bm.DeleteContent env c = (bm,true) ∧ y.deleted = true) ∨
          ∃ bm', bm.DeleteContent env c = (bm',true) ∧ y.deleted = false ∧
            Republished bm bm' c (some (deletedInfo y (contentWriteTime env y.timestampSeconds))))) := by
      intro y target same
      have member : y ∈ (bm.layers c).entries := by
        simp only [Layers.deleteTarget,Option.or_eq_some_iff] at target
        simp only [Layers.entries,List.mem_append,Option.mem_toList]
        rcases target with (found | ⟨_,found⟩) | ⟨_,found⟩
        · exact Or.inr (Or.inl (List.mem_of_find?_eq_some found))
        · exact Or.inr (Or.inr (Or.inr (Or.inl found)))
        · exact Or.inr (Or.inr (Or.inr (Or.inr (Option.filter_eq_some_iff.mp found).1)))
      rw [same]
      rcases deletePreexistingContent_spec wf fresh (contentID_of_mem_entries member) with old | refused | done
      · exact Or.inr ⟨y,target,Or.inl old⟩
      · exact Or.inl ⟨refused.1,Or.inr refused.2⟩
      · exact Or.inr ⟨y,target,Or.inr done⟩
    refine Or.inr ⟨gone,?_⟩
    unfold DeleteContent at outcome
    rw [first] at outcome
    dsimp only at outcome ⊢
    cases second : findLiveInPacks bm.writingPacks c with
    | some found =>
      obtain ⟨pp,y⟩ := found
      rw [second] at writing outcome
      exact outcome y (by simp [Layers.deleteTarget,WriteManager.layers,← writing]) rfl
    | none =>
      rw [second] at writing outcome
      dsimp only at outcome ⊢
      have notWriting : (bm.layers c).writing.find? (!·.deleted) = none := writing.symm
      cases third : bm.packIndexBuilder.get? c with
      | some y =>
        rw [third] at outcome
        exact outcome y (by simp [Layers.deleteTarget,notWriting,show (bm.layers c).built = some y from third]) rfl
      | none =>
        rw [third] at outcome
        dsimp only at outcome ⊢
        have notBuilt : (bm.layers c).built = none := third
        have visible := getContent_eq bm c
        cases fourth : bm.getContent c with
        | some y =>
          rw [fourth] at outcome visible
          exact outcome y (by simp [Layers.deleteTarget,notWriting,notBuilt,← visible]) rfl
        | none =>
          rw [fourth] at visible
          exact Or.inl ⟨rfl,Or.inl (by simp [Layers.deleteTarget,notWriting,notBuilt,← visible])⟩

end Deleting

section Unlocked
variable {env : Env} {bm : WriteManager} {before after : List PendingPackInfo} {pp pp' : PendingPackInfo}

theorem WellFormed.names_writing (wf : bm.WellFormed) : (bm.writingPacks.map PendingPackInfo.packBlobID).Nodup := by
  have names := wf.names
  rw [packs,List.map_append,List.map_append] at names
  exact (List.nodup_append.mp (List.nodup_append.mp names).1).2.1

theorem WellFormed.failed_apart (wf : bm.WellFormed) (member : pp ∈ bm.writingPacks) :
    ∀ p ∈ bm.failedPacks, p.packBlobID ≠ pp.packBlobID := by
  have names := wf.names
  rw [packs,List.map_append,List.map_append] at names
  intro p there same
  exact (List.nodup_append.mp names).2.2 _ (List.mem_append.mpr (Or.inr (List.mem_map_of_mem member)))
    _ (List.mem_map_of_mem there) same.symm

/-- The manager after a pack being written has been replaced by what its upload made
of it. -/
def withUploaded (bm : WriteManager) (packs : List PendingPackInfo) (blobs : BlobID → Option Bytes) : WriteManager :=
  {bm with writingPacks := packs, blobs := blobs}

theorem replaceWriting_eq (wf : bm.WellFormed) (split : bm.writingPacks = before ++ pp :: after) :
    (bm.writingPacks.map fun p => if p.packBlobID = pp.packBlobID then pp' else p) = before ++ pp' :: after := by
  have names := WellFormed.names_writing wf
  rw [split] at names ⊢
  exact map_replace_split names

theorem uploaded_wellFormed (wf : bm.WellFormed) (split : bm.writingPacks = before ++ pp :: after)
    (prepared : PreparedFrom pp pp') (blobs : BlobID → Option Bytes) :
    (withUploaded bm (before ++ pp' :: after) blobs).WellFormed := by
  refine wf.of_keys (List.Sublist.refl _) (List.Perm.subperm (List.Perm.of_eq ?_))
  simp [withUploaded,packs,split,prepared.key]

theorem uploaded_layers (split : bm.writingPacks = before ++ pp :: after) (prepared : PreparedFrom pp pp')
    (blobs : BlobID → Option Bytes) (c : ID) :
    (withUploaded bm (before ++ pp' :: after) blobs).layers c = bm.layers c := by
  simp [WriteManager.layers,withUploaded,split,entriesOf_cons,prepared.items]

theorem uploaded_backed (backed : bm.Backed) (split : bm.writingPacks = before ++ pp :: after)
    (prepared : PreparedFrom pp pp') {blobs : BlobID → Option Bytes}
    (grows : ∀ name, bm.blobs name ≠ none → blobs name ≠ none) :
    (withUploaded bm (before ++ pp' :: after) blobs).Backed := by
  refine ⟨backed.pending,fun c i found live => grows _ (backed.built c i found live),
    fun b there c i found live => grows _ (backed.committed b there c i found live),fun qq member => ?_⟩
  by_cases same : qq = pp'
  · exact same ▸ prepared.backed (backed.data pp (by simp [packs,split]))
  · refine backed.data qq ?_
    simp only [packs,withUploaded,split,List.mem_append,List.mem_cons] at member ⊢
    tauto

/-- The manager after an upload has been processed. -/
def withProcessed (bm : WriteManager) (writing failed : List PendingPackInfo) (built : Builder) : WriteManager :=
  {bm with writingPacks := writing, failedPacks := failed, packIndexBuilder := built}

/-- Processing settles a pack that was being written: its entries go to the index
being built, or the pack goes to the failed ones. -/
theorem processed_spec (wf : bm.WellFormed) (split : bm.writingPacks = before ++ pp :: after) (stored : Bool) :
    (stored = true ∧ ∃ built, Indexed bm.packIndexBuilder pp built ∧
      bm.processWritePackResult pp (if stored = true then some (Builder.empty.addAll pp.currentPackItems.infos) else none) =
        (withProcessed bm (before ++ after) bm.failedPacks built,true)) ∨
    (stored = false ∧
      bm.processWritePackResult pp (if stored = true then some (Builder.empty.addAll pp.currentPackItems.infos) else none) =
        (withProcessed bm (before ++ after) (bm.failedPacks ++ [pp]) bm.packIndexBuilder,false)) := by
  have writing : removePendingPack bm.writingPacks pp = before ++ after := by
    have names := WellFormed.names_writing wf
    rw [split] at names ⊢
    exact removePendingPack_split names rfl
  have failed : removePendingPack bm.failedPacks pp = bm.failedPacks :=
    removePendingPack_absent (WellFormed.failed_apart wf (by rw [split]; simp))
  cases stored with
  | true =>
    obtain ⟨built,indexed,done⟩ := processWritePackResult_some bm rfl (get?_packFileIndex pp)
    refine Or.inl ⟨rfl,built,indexed,?_⟩
    rw [writing,failed] at done
    exact done
  | false =>
    refine Or.inr ⟨rfl,?_⟩
    have done := processWritePackResult_none bm pp pp rfl
    rw [writing,failed] at done
    exact done

theorem processed_wellFormed (wf : bm.WellFormed) (split : bm.writingPacks = before ++ pp :: after) (built : Builder) :
    (withProcessed bm (before ++ after) bm.failedPacks built).WellFormed ∧
    (withProcessed bm (before ++ after) (bm.failedPacks ++ [pp]) built).WellFormed := by
  constructor
  · refine wf.of_keys (List.Sublist.refl _) (List.Sublist.subperm (List.Sublist.map _ ?_))
    simp only [packs,withProcessed,split]
    exact ((List.Sublist.append_left (List.sublist_cons_self _ _) _).append_left _).append_right _
  · refine wf.of_keys (List.Sublist.refl _) (List.Perm.subperm (List.Perm.map _ ?_))
    simp only [packs,withProcessed,split,List.append_assoc,List.cons_append]
    refine List.Perm.append_left _ (List.Perm.append_left _ ?_)
    simpa only [List.append_assoc] using List.perm_append_singleton pp (after ++ bm.failedPacks)

theorem processed_layers (split : bm.writingPacks = before ++ pp :: after) (c : ID) (mayFail : Prop) :
    (∀ built, Indexed bm.packIndexBuilder pp built → Layers.Processed mayFail (bm.layers c)
      ((withProcessed bm (before ++ after) bm.failedPacks built).layers c)) ∧
    ((pp.currentPackItems.get? c ≠ none → mayFail) → Layers.Processed mayFail (bm.layers c)
      ((withProcessed bm (before ++ after) (bm.failedPacks ++ [pp]) bm.packIndexBuilder).layers c)) := by
  cases found : pp.currentPackItems.get? c with
  | none =>
    constructor
    · intro built indexed
      have same : (withProcessed bm (before ++ after) bm.failedPacks built).layers c = bm.layers c := by
        simp [WriteManager.layers,withProcessed,split,entriesOf_cons,found,indexed c]
      rw [same]
      exact .unaffected _
    · intro _
      have same : (withProcessed bm (before ++ after) (bm.failedPacks ++ [pp]) bm.packIndexBuilder).layers c =
          bm.layers c := by
        simp [WriteManager.layers,withProcessed,split,entriesOf_cons,found]
      rw [same]
      exact .unaffected _
  | some x =>
    have here : (bm.layers c).writing = entriesOf before c ++ x :: entriesOf after c := by
      simp [WriteManager.layers,split,entriesOf_cons,found]
    constructor
    · intro built indexed
      have moved : Layers.Processed mayFail (bm.layers c) _ := .indexed (bm.layers c) _ x _ here
      simpa [WriteManager.layers,withProcessed,indexed c,found] using moved
    · intro fails
      have moved := Layers.Processed.failed (bm.layers c) _ x _ (fails (by simp)) here
      simpa [WriteManager.layers,withProcessed,entriesOf_cons,found] using moved

theorem processed_backed (backed : bm.Backed) (wf : bm.WellFormed) (split : bm.writingPacks = before ++ pp :: after) :
    (bm.blobs pp.packBlobID ≠ none → ∀ built, Indexed bm.packIndexBuilder pp built →
      (withProcessed bm (before ++ after) bm.failedPacks built).Backed) ∧
    (withProcessed bm (before ++ after) (bm.failedPacks ++ [pp]) bm.packIndexBuilder).Backed := by
  constructor
  · intro there built indexed
    refine ⟨backed.pending,fun c i found live => ?_,backed.committed,fun qq member => backed.data qq ?_⟩
    · show bm.blobs i.packBlobID ≠ none
      rw [show (withProcessed bm (before ++ after) bm.failedPacks built).packIndexBuilder.get? c = built.get? c from rfl,
        indexed c] at found
      cases entry : pp.currentPackItems.get? c with
      | none => exact backed.built c i (by simpa [entry] using found) live
      | some x =>
        rw [entry] at found
        have fresh : x = i → bm.blobs i.packBlobID ≠ none := by
          rintro rfl
          rw [wf.own pp (by simp [packs,split]) c x entry live]
          exact there
        cases former : bm.packIndexBuilder.get? c with
        | none =>
          rw [former] at found
          exact fresh (Option.some.inj found)
        | some o =>
          rw [former] at found
          rcases winner_some o x with new | kept
          · exact fresh (new.symm.trans (Option.some.inj found))
          · exact backed.built c i (former.trans ((congrArg some kept.symm).trans found)) live
    · simp only [packs,withProcessed,split,List.mem_append,List.mem_cons] at member ⊢
      tauto
  · refine ⟨backed.pending,backed.built,backed.committed,fun qq member => backed.data qq ?_⟩
    simp only [packs,withProcessed,split,List.mem_append,List.mem_cons,List.not_mem_nil] at member ⊢
    tauto

end Unlocked

end Vbe.Content
