import Vbe.IndexBlob.Preservation
import Vbe.Library.Keyed
import Vbe.Content.Manager

/-! The committed content index: which index files are open, what their merge answers, and the switch
to another set of files. Watermarks are in whole seconds, as the times of entries are. -/
namespace Vbe.Content
open Vbe.Library Vbe.Index
open Vbe.IndexBlob (CombineError combinedFile isSmall)

/-- An open index. One that was mapped from a file is closed by unmapping it, one in memory is not closed. -/
structure Handle where
  index : OpenedIndex ReadError
  closer : Option Nat

abbrev Handles := Keyed (Prod.fst : BlobID × Handle → BlobID)

abbrev Contents := Keyed (Prod.fst : BlobID × OpenedIndex ReadError → BlobID)

/-- `committedContentIndexCache`. -/
inductive Cache where
  | memory (contents : Contents)
  | disk

/-- The mappings of files: the number that the next attempt gets, and those that were undone. -/
structure Mappings where
  next : Nat
  unmapped : List Nat

inductive OpenFailure where
  | notFoundInCache (indexBlob : BlobID)
  | unableToMap (indexBlob : BlobID)
  | opening (indexBlob : BlobID) (e : OpenIndexError)

inductive UseError where
  | unableToOpen (indexBlob : BlobID) (e : OpenFailure)
  | unableToCombine (e : CombineError)

inductive AddError where
  | addingToCache (indexBlob : BlobID)
  | unableToOpen (indexBlob : BlobID) (e : OpenFailure)

inductive GetContentError where
  | notFound
  | gettingInfo (e : ReadError)

/-- What a call finds outside of the index. -/
structure Outside where
  /-- The bytes of a file, if it can be mapped now. -/
  mapFile : Nat → BlobID → Option Bytes
  /-- Files of the cache directory can be found and written. -/
  writable : Bool
  v1PerContentOverhead : Nat
  getMutableParameters : Option Int
  random : Option Bytes

structure CommittedContentIndex where
  rev : Int
  cache : Cache
  mappings : Mappings
  permissiveCacheLoading : Bool
  deletionWatermark : Int
  inUse : Handles
  merged : List Handle

def Mappings.unmap (m : Mappings) (k : Nat) : Mappings := { m with unmapped := k :: m.unmapped }

def Mappings.close (m : Mappings) (h : Handle) : Mappings :=
  match h.closer with
  | none => m
  | some k => m.unmap k

/-- `Merged.Close`. -/
def Mappings.closeAll (m : Mappings) (handles : List Handle) : Mappings := handles.foldl Mappings.close m

variable (q : Outside)

def Cache.openIndex (cache : Cache) (m : Mappings) (indexBlob : BlobID) : Except OpenFailure Handle × Mappings :=
  match cache with
  | .memory contents =>
    match contents.get? indexBlob with
    | none => (.error (.notFoundInCache indexBlob),m)
    | some v => (.ok ⟨v.2,none⟩,m)
  | .disk =>
    let tried := { m with next := m.next + 1 }
    match q.mapFile m.next indexBlob with
    | none => (.error (.unableToMap indexBlob),tried)
    | some f =>
      match Open q.v1PerContentOverhead f with
      | .error e => (.error (.opening indexBlob e),tried.unmap m.next)
      | .ok ndx => (.ok ⟨ndx.opened [],some m.next⟩,tried)

def Cache.expireUnused (cache : Cache) (used : List BlobID) : Cache :=
  match cache with
  | .memory contents => .memory (contents.filter fun v => v.1 ∈ used)
  | .disk => .disk

/-- The files of a directory are outside of the state. -/
def Cache.addContentToCache (cache : Cache) (indexBlob : BlobID) (data : Bytes) : Option Cache :=
  match cache with
  | .memory contents =>
    match Open q.v1PerContentOverhead data with
    | .error _ => none
    | .ok ndx => some (.memory (contents.set (indexBlob,ndx.opened [])))
  | .disk => if q.writable then some .disk else none

/-- `combineSmallIndexes`, of indexes that can be closed. -/
def combineHandles (m : List Handle) : Except CombineError (List Handle) :=
  let toMerge := m.filter fun h => isSmall h.index
  let toKeep := m.filter fun h => !isSmall h.index
  if toMerge.length ≤ 1 then .ok m
  else
    match combinedFile q.getMutableParameters q.random (toMerge.map Handle.index) with
    | .error e => .error e
    | .ok buf =>
      match Open q.v1PerContentOverhead buf with
      | .error e => .error (.opening e)
      | .ok combined => .ok (toKeep ++ [⟨combined.opened [],none⟩])

/-- Combining goes by what the indexes answer. -/
theorem combineHandles_index (m : List Handle) : (combineHandles q m).map (List.map Handle.index) =
    IndexBlob.combineSmallIndexes q.v1PerContentOverhead q.getMutableParameters q.random (m.map Handle.index) := by
  have kept (p : OpenedIndex ReadError → Bool) : (m.map Handle.index).filter p = (m.filter fun h => p h.index).map Handle.index :=
    List.filter_map
  unfold combineHandles IndexBlob.combineSmallIndexes
  simp only [kept,List.length_map]
  split
  next few => rfl
  next several =>
    cases combinedFile q.getMutableParameters q.random ((m.filter fun h => isSmall h.index).map Handle.index) with
    | error e => rfl
    | ok buf =>
      dsimp only
      cases Open q.v1PerContentOverhead buf with
      | error e => rfl
      | ok combined => simp [Except.map]

namespace CommittedContentIndex

def new (onDisk permissiveCacheLoading : Bool) : CommittedContentIndex where
  rev := 0
  cache := if onDisk then .disk else .memory Keyed.empty
  mappings := ⟨0,[]⟩
  permissiveCacheLoading := permissiveCacheLoading
  deletionWatermark := -62135596800
  inUse := Keyed.empty
  merged := []

variable (c : CommittedContentIndex)

def getContent (contentID : ID) : Except GetContentError Info :=
  match Merged.GetInfo (c.merged.map Handle.index) contentID with
  | .ok (some info) => if shouldIgnore info c.deletionWatermark then .error .notFound else .ok info
  | .ok none => .error .notFound
  | .error e => .error (.gettingInfo e)

/-- What a callback that never fails is called with. -/
def listContents (r : IDRange) : List Info × Option ReadError :=
  let m := Merged.Iterate (c.merged.map Handle.index) r
  (m.1.filter fun i => !shouldIgnore i c.deletionWatermark,m.2)

def indexFilesChanged (indexFiles : List BlobID) : Bool :=
  indexFiles.length ≠ c.inUse.values.length || indexFiles.any fun ndx => (c.inUse.get? ndx).isNone

/-- The variables of the loop in `merge`. -/
structure Progress where
  newMerged : List Handle
  newlyOpened : List Handle
  newUsedMap : Handles
  mappings : Mappings

def Progress.take (p : Progress) (e : BlobID) (ndx : Handle) : Progress :=
  { p with newMerged := p.newMerged ++ [ndx], newUsedMap := p.newUsedMap.set (e,ndx) }

def Progress.abandoned (p : Progress) : Mappings := p.mappings.closeAll p.newlyOpened

def mergeLoop : List BlobID → Progress → Except UseError Progress × Mappings
  | [], p => (.ok p,p.mappings)
  | e :: rest, p =>
    match c.inUse.get? e with
    | some ndx => mergeLoop rest (p.take e ndx.2)
    | none =>
      match c.cache.openIndex q p.mappings e with
      | (.error failure,mappings) =>
        if c.permissiveCacheLoading then mergeLoop rest { p with mappings := mappings }
        else (.error (.unableToOpen e failure),{ p with mappings := mappings }.abandoned)
      | (.ok ndx,mappings) =>
        mergeLoop rest ({ p with newlyOpened := p.newlyOpened ++ [ndx], mappings := mappings }.take e ndx)

def merge (indexFiles : List BlobID) : Except UseError (List Handle × Handles) × Mappings :=
  match c.mergeLoop q indexFiles ⟨[],[],Keyed.empty,c.mappings⟩ with
  | (.error e,mappings) => (.error e,mappings)
  | (.ok p,_) =>
    match combineHandles q p.newMerged with
    | .error e => (.error (.unableToCombine e),p.abandoned)
    | .ok mergedAndCombined => (.ok (mergedAndCombined,p.newUsedMap),p.mappings)

/-- The indexes that a switch to other files gives up. -/
def superseded (newInUse : Handles) : List Handle :=
  (c.inUse.values.filter fun old => (newInUse.get? old.1).isNone).map Prod.snd

/-- The watermark is set first. -/
def use (indexFiles : List BlobID) (ignoreDeletedBefore : Int) : Option UseError × CommittedContentIndex :=
  let c := { c with deletionWatermark := ignoreDeletedBefore }
  if !c.indexFilesChanged indexFiles then (none,c)
  else
    match c.merge q indexFiles with
    | (.error e,mappings) => (some e,{ c with mappings := mappings })
    | (.ok (mergedAndCombined,newInUse),mappings) =>
      (none,{ c with
        rev := c.rev + 1
        merged := mergedAndCombined
        inUse := newInUse
        mappings := mappings.closeAll (c.superseded newInUse)
        cache := c.cache.expireUnused indexFiles })

def addIndexBlob (indexBlobID : BlobID) (data : Bytes) (use : Bool) : Option AddError × CommittedContentIndex :=
  let bumped := { c with rev := c.rev + 1 }
  match c.cache.addContentToCache q indexBlobID data with
  | none => (some (.addingToCache indexBlobID),bumped)
  | some cache =>
    let added := { bumped with cache := cache }
    if !use || (c.inUse.get? indexBlobID).isSome then (none,added)
    else
      match cache.openIndex q c.mappings indexBlobID with
      | (.error e,mappings) => (some (.unableToOpen indexBlobID e),{ added with mappings := mappings })
      | (.ok ndx,mappings) =>
        (none,{ added with mappings := mappings, inUse := c.inUse.set (indexBlobID,ndx), merged := c.merged ++ [ndx] })

end CommittedContentIndex

section Tracking
variable {q}

/-- Attempts to map a file only go up, and only later mappings were undone since. -/
def Mappings.Grown (m m' : Mappings) : Prop :=
  m.next ≤ m'.next ∧ ∀ k ∈ m'.unmapped, k ∈ m.unmapped ∨ m.next ≤ k

def Mappings.Knows (m : Mappings) (h : Handle) : Prop := ∀ k, h.closer = some k → k < m.next

theorem Mappings.Grown.refl (m : Mappings) : m.Grown m := ⟨le_refl _,fun _ member => .inl member⟩

theorem Mappings.Grown.trans {m m' m'' : Mappings} (first : m.Grown m') (second : m'.Grown m'') : m.Grown m'' := by
  refine ⟨first.1.trans second.1,fun k member => ?_⟩
  rcases second.2 k member with earlier | later
  · exact first.2 k earlier
  · exact .inr (first.1.trans later)

theorem Mappings.Grown.knows {m m' : Mappings} (grown : m.Grown m') {h : Handle} (known : m.Knows h) : m'.Knows h :=
  fun k own => (known k own).trans_le grown.1

@[simp] theorem Mappings.next_close (m : Mappings) (h : Handle) : (m.close h).next = m.next := by
  unfold Mappings.close
  split <;> rfl

@[simp] theorem Mappings.next_closeAll (m : Mappings) (handles : List Handle) : (m.closeAll handles).next = m.next := by
  induction handles generalizing m with
  | nil => rfl
  | cons h handles ih => exact (ih (m.close h)).trans (m.next_close h)

theorem Mappings.Knows.closeAll {m : Mappings} {h : Handle} (known : m.Knows h) (handles : List Handle) :
    (m.closeAll handles).Knows h := by
  intro k own
  rw [Mappings.next_closeAll]
  exact known k own

theorem Mappings.mem_close {m : Mappings} {h : Handle} {k : Nat} (member : k ∈ (m.close h).unmapped) :
    k ∈ m.unmapped ∨ h.closer = some k := by
  unfold Mappings.close at member
  split at member
  next => exact .inl member
  next l own =>
    rcases List.mem_cons.mp member with rfl | earlier
    · exact .inr own
    · exact .inl earlier

theorem Mappings.mem_closeAll {m : Mappings} {handles : List Handle} {k : Nat} (member : k ∈ (m.closeAll handles).unmapped) :
    k ∈ m.unmapped ∨ ∃ h ∈ handles, h.closer = some k := by
  induction handles generalizing m with
  | nil => exact .inl member
  | cons h handles ih =>
    rcases ih member with earlier | ⟨h',there,own⟩
    · rcases Mappings.mem_close earlier with before | own
      · exact .inl before
      · exact .inr ⟨h,by simp,own⟩
    · exact .inr ⟨h',by simp [there],own⟩

/-- What an attempt to open an index can do. -/
theorem Cache.openIndex_cases (cache : Cache) (m : Mappings) (indexBlob : BlobID) :
    (∃ e, cache.openIndex q m indexBlob = (.error e,m)) ∨
    (∃ ndx, cache.openIndex q m indexBlob = (.ok ⟨ndx,none⟩,m)) ∨
    (∃ e, cache.openIndex q m indexBlob = (.error e,{ m with next := m.next + 1 })) ∨
    (∃ e, cache.openIndex q m indexBlob = (.error e,Mappings.unmap { m with next := m.next + 1 } m.next)) ∨
    ∃ ndx, cache.openIndex q m indexBlob = (.ok ⟨ndx,some m.next⟩,{ m with next := m.next + 1 }) := by
  cases cache with
  | memory contents =>
    cases found : contents.get? indexBlob with
    | none => exact .inl ⟨.notFoundInCache indexBlob,by simp only [Cache.openIndex,found]⟩
    | some v => exact .inr (.inl ⟨v.2,by simp only [Cache.openIndex,found]⟩)
  | disk =>
    cases mapped : q.mapFile m.next indexBlob with
    | none => exact .inr (.inr (.inl ⟨.unableToMap indexBlob,by simp only [Cache.openIndex,mapped]⟩))
    | some f =>
      cases opens : Open q.v1PerContentOverhead f with
      | error e => exact .inr (.inr (.inr (.inl ⟨.opening indexBlob e,by simp only [Cache.openIndex,mapped,opens]⟩)))
      | ok ndx => exact .inr (.inr (.inr (.inr ⟨ndx.opened [],by simp only [Cache.openIndex,mapped,opens]⟩)))

theorem Cache.openIndex_grown (cache : Cache) (m : Mappings) (indexBlob : BlobID) :
    m.Grown (cache.openIndex q m indexBlob).2 := by
  have tried : m.Grown { m with next := m.next + 1 } := ⟨Nat.le_succ _,fun _ member => .inl member⟩
  obtain ⟨e,same⟩ | ⟨ndx,same⟩ | ⟨e,same⟩ | ⟨e,same⟩ | ⟨ndx,same⟩ := cache.openIndex_cases (q := q) m indexBlob
  · exact same ▸ .refl m
  · exact same ▸ .refl m
  · exact same ▸ tried
  · rw [same]
    refine ⟨Nat.le_succ _,fun k member => ?_⟩
    rcases List.mem_cons.mp member with rfl | earlier
    · exact .inr (le_refl _)
    · exact .inl earlier
  · exact same ▸ tried

/-- An index that is opened has a mapping of its own. -/
theorem Cache.openIndex_fresh {cache : Cache} {m : Mappings} {indexBlob : BlobID} {h : Handle}
    (done : (cache.openIndex q m indexBlob).1 = .ok h) :
    (cache.openIndex q m indexBlob).2.Knows h ∧ ∀ k, h.closer = some k → m.next ≤ k := by
  obtain ⟨e,same⟩ | ⟨ndx,same⟩ | ⟨e,same⟩ | ⟨e,same⟩ | ⟨ndx,same⟩ := cache.openIndex_cases (q := q) m indexBlob
  all_goals rw [same] at done ⊢
  · contradiction
  · cases done
    exact ⟨fun k own => by contradiction,fun k own => by contradiction⟩
  · contradiction
  · contradiction
  · cases done
    exact ⟨fun k own => by cases own; exact Nat.lt_succ_self _,fun k own => by cases own; exact le_refl _⟩

end Tracking

namespace CommittedContentIndex
variable {q} {c : CommittedContentIndex}

/-- What the loop keeps, from the mappings that the call began with. -/
structure Progress.Tracked (start : Mappings) (p : Progress) : Prop where
  grown : start.Grown p.mappings
  opened : ∀ h ∈ p.newlyOpened, ∀ k, h.closer = some k → start.next ≤ k
  merged : ∀ h ∈ p.newMerged, p.mappings.Knows h
  used : ∀ v ∈ p.newUsedMap.values, p.mappings.Knows v.2

/-- The mappings of all indexes in use have numbers that are taken. -/
structure Sound (c : CommittedContentIndex) : Prop where
  merged : ∀ h ∈ c.merged, c.mappings.Knows h
  used : ∀ v ∈ c.inUse.values, c.mappings.Knows v.2

theorem Progress.Tracked.take {start : Mappings} {p : Progress} (tracked : p.Tracked start) (e : BlobID) {ndx : Handle}
    (known : p.mappings.Knows ndx) : (p.take e ndx).Tracked start where
  grown := tracked.grown
  opened := tracked.opened
  merged h member := by
    rcases List.mem_append.mp member with earlier | last
    · exact tracked.merged h earlier
    · cases List.mem_singleton.mp last
      exact known
  used v member := by
    rcases Keyed.mem_set member with earlier | rfl
    · exact tracked.used v earlier
    · exact known

theorem Progress.Tracked.tried {start mappings : Mappings} {p : Progress} (tracked : p.Tracked start)
    (grown : p.mappings.Grown mappings) : Progress.Tracked start { p with mappings := mappings } where
  grown := tracked.grown.trans grown
  opened := tracked.opened
  merged h member := grown.knows (tracked.merged h member)
  used v member := grown.knows (tracked.used v member)

theorem Progress.Tracked.open {start mappings : Mappings} {p : Progress} (tracked : p.Tracked start)
    (grown : p.mappings.Grown mappings) {ndx : Handle} (later : ∀ k, ndx.closer = some k → p.mappings.next ≤ k) :
    Progress.Tracked start { p with newlyOpened := p.newlyOpened ++ [ndx], mappings := mappings } where
  grown := tracked.grown.trans grown
  opened h member k own := by
    rcases List.mem_append.mp member with earlier | last
    · exact tracked.opened h earlier k own
    · cases List.mem_singleton.mp last
      exact tracked.grown.1.trans (later k own)
  merged h member := grown.knows (tracked.merged h member)
  used v member := grown.knows (tracked.used v member)

/-- Giving up closes only what the call has opened. -/
theorem Progress.Tracked.abandoned {start : Mappings} {p : Progress} (tracked : p.Tracked start) : start.Grown p.abandoned := by
  refine ⟨?_,fun k member => ?_⟩
  · rw [Progress.abandoned,Mappings.next_closeAll]
    exact tracked.grown.1
  · rcases Mappings.mem_closeAll member with earlier | ⟨h,there,own⟩
    · exact tracked.grown.2 k earlier
    · exact .inr (tracked.opened h there k own)

theorem mergeLoop_tracked {start : Mappings} (sound : ∀ v ∈ c.inUse.values, start.Knows v.2) (files : List BlobID)
    {p : Progress} (tracked : p.Tracked start) :
    start.Grown (c.mergeLoop q files p).2 ∧
      ∀ p', (c.mergeLoop q files p).1 = .ok p' → p'.Tracked start := by
  induction files generalizing p with
  | nil => exact ⟨tracked.grown,fun p' done => Except.ok.inj done ▸ tracked⟩
  | cons e rest ih =>
    unfold mergeLoop
    cases found : c.inUse.get? e with
    | some ndx =>
      have member := List.mem_of_find?_eq_some found
      exact ih (tracked.take e (tracked.grown.knows (sound ndx member)))
    | none =>
      have grown := c.cache.openIndex_grown (q := q) p.mappings e
      have fresh := @Cache.openIndex_fresh q c.cache p.mappings e
      generalize c.cache.openIndex q p.mappings e = attempt at grown fresh
      obtain ⟨result,mappings⟩ := attempt
      cases result with
      | error failure =>
        dsimp only
        split
        next permissive => exact ih (tracked.tried grown)
        next strict => exact ⟨(tracked.tried grown).abandoned,fun p' done => by contradiction⟩
      | ok ndx =>
        obtain ⟨known,later⟩ := fresh rfl
        exact ih ((tracked.open grown later).take e known)

/-- Combining keeps indexes, or puts one in memory in the place of several. -/
theorem combineHandles_mem {m combined : List Handle} (done : combineHandles q m = .ok combined) {h : Handle}
    (member : h ∈ combined) : h ∈ m ∨ h.closer = none := by
  unfold combineHandles at done
  dsimp only at done
  split at done
  next few =>
    cases done
    exact .inl member
  next several =>
    split at done
    next => contradiction
    next =>
      split at done
      next => contradiction
      next =>
        cases done
        rcases List.mem_append.mp member with kept | last
        · exact .inl (List.mem_of_mem_filter kept)
        · cases List.mem_singleton.mp last
          exact .inr rfl

theorem merge_grown (sound : c.Sound) (files : List BlobID) : c.mappings.Grown (c.merge q files).2 := by
  have tracked : Progress.Tracked c.mappings ⟨[],[],Keyed.empty,c.mappings⟩ :=
    ⟨.refl _,by simp,by simp,by simp [Keyed.empty]⟩
  obtain ⟨grown,kept⟩ := mergeLoop_tracked (q := q) sound.used files tracked
  unfold merge
  generalize c.mergeLoop q files ⟨[],[],Keyed.empty,c.mappings⟩ = outcome at grown kept
  obtain ⟨result,mappings⟩ := outcome
  cases result with
  | error e => exact grown
  | ok p =>
    have after := kept p rfl
    cases combined : combineHandles q p.newMerged with
    | error e => simpa only [combined] using after.abandoned
    | ok handles => simpa only [combined] using after.grown

theorem merge_knows (sound : c.Sound) {files : List BlobID} {merged : List Handle} {used : Handles}
    (done : (c.merge q files).1 = .ok (merged,used)) :
    (∀ h ∈ merged, (c.merge q files).2.Knows h) ∧ ∀ v ∈ used.values, (c.merge q files).2.Knows v.2 := by
  have tracked : Progress.Tracked c.mappings ⟨[],[],Keyed.empty,c.mappings⟩ :=
    ⟨.refl _,by simp,by simp,by simp [Keyed.empty]⟩
  obtain ⟨-,kept⟩ := mergeLoop_tracked (q := q) sound.used files tracked
  unfold merge at done ⊢
  generalize c.mergeLoop q files ⟨[],[],Keyed.empty,c.mappings⟩ = outcome at done kept
  obtain ⟨result,mappings⟩ := outcome
  cases result with
  | error e => contradiction
  | ok p =>
    have after := kept p rfl
    cases combined : combineHandles q p.newMerged with
    | error e =>
      simp only [combined] at done
      contradiction
    | ok handles =>
      simp only [combined,Except.ok.injEq,Prod.mk.injEq] at done ⊢
      obtain ⟨rfl,rfl⟩ := done
      refine ⟨fun h member => ?_,after.used⟩
      rcases combineHandles_mem combined member with inside | none
      · exact after.merged h inside
      · exact fun k own => absurd (none.symm.trans own) (by simp)

/-- A switch that fails has set the watermark and leaves what is merged and in use. -/
theorem use_failed (sound : c.Sound) {files : List BlobID} {watermark : Int} {e : UseError}
    (failed : (c.use q files watermark).1 = some e) :
    ∃ m, c.mappings.Grown m ∧ (c.use q files watermark).2 = { c with deletionWatermark := watermark, mappings := m } := by
  have marked : Sound { c with deletionWatermark := watermark } := ⟨sound.merged,sound.used⟩
  have grown := merge_grown (q := q) marked files
  unfold use at failed ⊢
  dsimp only at failed ⊢
  split at failed
  next => contradiction
  next changed =>
    rw [if_neg changed]
    generalize merge q { c with deletionWatermark := watermark } files = outcome at failed grown
    obtain ⟨result,mappings⟩ := outcome
    cases result with
    | error e => exact ⟨mappings,grown,rfl⟩
    | ok switched => contradiction

theorem use_sound (sound : c.Sound) (files : List BlobID) (watermark : Int) : (c.use q files watermark).2.Sound := by
  have marked : Sound { c with deletionWatermark := watermark } := ⟨sound.merged,sound.used⟩
  have grown := merge_grown (q := q) marked files
  have knows := fun merged used => @merge_knows q _ marked files merged used
  unfold use
  dsimp only
  split
  next => exact marked
  next =>
    generalize merge q { c with deletionWatermark := watermark } files = outcome at grown knows
    obtain ⟨result,mappings⟩ := outcome
    cases result with
    | error e => exact ⟨fun h member => grown.knows (sound.merged h member),fun v member => grown.knows (sound.used v member)⟩
    | ok switched =>
      obtain ⟨merged,used⟩ := switched
      obtain ⟨own,there⟩ := knows merged used rfl
      exact ⟨fun h member => (own h member).closeAll _,fun v member => (there v member).closeAll _⟩

theorem addIndexBlob_sound (sound : c.Sound) (indexBlobID : BlobID) (data : Bytes) (use : Bool) :
    (c.addIndexBlob q indexBlobID data use).2.Sound := by
  unfold addIndexBlob
  dsimp only
  split
  next => exact ⟨sound.merged,sound.used⟩
  next cache added =>
    split
    next => exact ⟨sound.merged,sound.used⟩
    next =>
      have grown := cache.openIndex_grown (q := q) c.mappings indexBlobID
      have fresh := @Cache.openIndex_fresh q cache c.mappings indexBlobID
      generalize cache.openIndex q c.mappings indexBlobID = attempt at grown fresh
      obtain ⟨result,mappings⟩ := attempt
      cases result with
      | error e => exact ⟨fun h member => grown.knows (sound.merged h member),fun v member => grown.knows (sound.used v member)⟩
      | ok ndx =>
        have known := (fresh rfl).1
        refine ⟨fun h member => ?_,fun v member => ?_⟩
        · rcases List.mem_append.mp member with earlier | last
          · exact grown.knows (sound.merged h earlier)
          · cases List.mem_singleton.mp last
            exact known
        · rcases Keyed.mem_set member with earlier | rfl
          · exact grown.knows (sound.used v earlier)
          · exact known

/-- The states that a new index gets to. -/
inductive Reached : CommittedContentIndex → Prop
  | new (onDisk permissiveCacheLoading : Bool) : Reached (new onDisk permissiveCacheLoading)
  | use {d : CommittedContentIndex} (q : Outside) (files : List BlobID) (watermark : Int) :
      Reached d → Reached (d.use q files watermark).2
  | addIndexBlob {d : CommittedContentIndex} (q : Outside) (indexBlobID : BlobID) (data : Bytes) (use : Bool) :
      Reached d → Reached (d.addIndexBlob q indexBlobID data use).2

theorem Reached.sound (reached : Reached c) : c.Sound := by
  induction reached with
  | new onDisk permissive => exact ⟨by simp [CommittedContentIndex.new],by simp [CommittedContentIndex.new,Keyed.empty]⟩
  | use q files watermark _ ih => exact use_sound ih files watermark
  | addIndexBlob q indexBlobID data use _ ih => exact addIndexBlob_sound ih indexBlobID data use

/-- An entry that the merged indexes answer with, before the watermark is looked at. -/
def Answers (c : CommittedContentIndex) (info : Info) : Prop :=
  (∃ id, Merged.GetInfo (c.merged.map Handle.index) id = .ok (some info)) ∨
    ∃ r, info ∈ (Merged.Iterate (c.merged.map Handle.index) r).1

def InUse (c : CommittedContentIndex) (h : Handle) : Prop := h ∈ c.merged ∨ ∃ v ∈ c.inUse.values, v.2 = h

def Closed (c : CommittedContentIndex) (h : Handle) : Prop := ∃ k ∈ c.mappings.unmapped, h.closer = some k

theorem shouldIgnore_iff {info : Info} {watermark : Int} :
    shouldIgnore info watermark = true ↔ info.deleted = true ∧ info.timestampSeconds ≤ watermark := by
  unfold shouldIgnore
  cases info.deleted with
  | false => simp
  | true => simp

theorem shouldIgnore_eq_iff {info : Info} {before after : Int} :
    shouldIgnore info after = shouldIgnore info before ↔
      (info.deleted = true → (info.timestampSeconds ≤ before ↔ info.timestampSeconds ≤ after)) := by
  rw [Bool.eq_iff_iff,shouldIgnore_iff,shouldIgnore_iff]
  tauto

/-- Two watermarks give the same answers when they ignore the same of the entries. -/
theorem answers_same_iff (m : Mappings) (watermark : Int) :
    ((∀ id, getContent { c with deletionWatermark := watermark, mappings := m } id = c.getContent id) ∧
      ∀ r, listContents { c with deletionWatermark := watermark, mappings := m } r = c.listContents r) ↔
    ∀ info, c.Answers info → shouldIgnore info watermark = shouldIgnore info c.deletionWatermark := by
  constructor
  · rintro ⟨lookups,listings⟩ info (⟨id,found⟩ | ⟨r,listed⟩)
    · have same := lookups id
      simp only [getContent,found] at same
      split at same <;> split at same <;> simp_all
    · have same := congrArg Prod.fst (listings r)
      have member : info ∈ (listContents { c with deletionWatermark := watermark, mappings := m } r).1 ↔
          info ∈ (c.listContents r).1 := by
        rw [same]
      simp only [listContents,List.mem_filter,listed,true_and,Bool.not_eq_true'] at member
      cases after : shouldIgnore info watermark with
      | false => exact (member.mp after).symm
      | true =>
        cases before : shouldIgnore info c.deletionWatermark with
        | true => rfl
        | false => exact absurd (member.mpr before) (by simp [after])
  · intro same
    refine ⟨fun id => ?_,fun r => ?_⟩
    · cases found : Merged.GetInfo (c.merged.map Handle.index) id with
      | error e => simp only [getContent,found]
      | ok result =>
        cases result with
        | none => simp only [getContent,found]
        | some info => simp only [getContent,found,same info (.inl ⟨id,found⟩)]
    · simp only [listContents,Prod.mk.injEq,and_true]
      exact List.filter_congr fun info listed => by rw [same info (.inr ⟨r,listed⟩)]

/-- A switch that fails keeps every answer exactly when the two watermarks agree on all deleted
entries that are merged, and never closes an index that is in use. -/
theorem use_failed_unchanged {c : CommittedContentIndex} (reached : Reached c) (q : Outside) (files : List BlobID)
    (watermark : Int) {e : UseError} (failed : (c.use q files watermark).1 = some e) :
    ((∀ id, (c.use q files watermark).2.getContent id = c.getContent id) ∧
      (∀ r, (c.use q files watermark).2.listContents r = c.listContents r) ∧
      ∀ h, (c.use q files watermark).2.InUse h → (c.use q files watermark).2.Closed h → c.Closed h) ↔
    ∀ info, c.Answers info → info.deleted = true →
      (info.timestampSeconds ≤ c.deletionWatermark ↔ info.timestampSeconds ≤ watermark) := by
  obtain ⟨m,grown,left⟩ := use_failed reached.sound failed
  have kept : ∀ h, (c.use q files watermark).2.InUse h → (c.use q files watermark).2.Closed h → c.Closed h := by
    rw [left]
    rintro h used ⟨k,unmapped,own⟩
    refine ⟨k,(grown.2 k unmapped).resolve_right fun later => ?_,own⟩
    have known : c.mappings.Knows h := by
      rcases used with member | ⟨v,member,rfl⟩
      · exact reached.sound.merged h member
      · exact reached.sound.used v member
    exact absurd (known k own) (by omega)
  have answers := answers_same_iff (c := c) m watermark
  rw [left] at kept ⊢
  constructor
  · rintro ⟨lookups,listings,-⟩ info answered
    exact shouldIgnore_eq_iff.mp (answers.mp ⟨lookups,listings⟩ info answered)
  · intro agree
    obtain ⟨lookups,listings⟩ := answers.mpr fun info answered => shouldIgnore_eq_iff.mpr (agree info answered)
    exact ⟨lookups,listings,kept⟩

/-- Surroundings with no files to map. -/
def nothingMapped : Outside where
  mapFile := fun _ _ => none
  writable := true
  v1PerContentOverhead := 0
  getMutableParameters := some 2
  random := none

/-- One index file with a deleted entry, kept in memory. -/
def loaded : CommittedContentIndex :=
  ((new false false).addIndexBlob nothingMapped [1] (fileBytes [Vbe.Index.deletedInfo]) true).2

theorem loaded_merged : ∃ file : IndexFile 0, IndexBlob.entriesIn [file] = [Vbe.Index.deletedInfo] ∧
    loaded = {
      rev := 1
      cache := .memory (Keyed.empty.set ([1],file.index.toOpenedIndex))
      mappings := ⟨0,[]⟩
      permissiveCacheLoading := false
      deletionWatermark := -62135596800
      inUse := Keyed.empty.set ([1],⟨file.index.toOpenedIndex,none⟩)
      merged := [⟨file.index.toOpenedIndex,none⟩] } := by
  obtain ⟨file,read,entries⟩ := IndexBlob.rewritten_file 2
  have data : fileBytes [Vbe.Index.deletedInfo] = file.data := Option.some.inj read
  have opens : Open 0 file.data = .ok file.ndx := file.opens
  have same : file.ndx.opened [] = file.index.toOpenedIndex := file.answers [] file.ndx.remembers_nil
  have added : Cache.addContentToCache nothingMapped (.memory Keyed.empty) [1] (fileBytes [Vbe.Index.deletedInfo]) =
      some (.memory (Keyed.empty.set ([1],file.index.toOpenedIndex))) := by
    simp only [Cache.addContentToCache,nothingMapped,data,opens,same]
  refine ⟨file,entries,?_⟩
  simp only [loaded,addIndexBlob,new,Bool.false_eq_true,if_false,added]
  rfl

theorem loaded_getContent : loaded.getContent Vbe.Index.deletedInfo.contentID = .ok Vbe.Index.deletedInfo := by
  obtain ⟨file,entries,same⟩ := loaded_merged
  have found : Merged.GetInfo [file.index.toOpenedIndex] Vbe.Index.deletedInfo.contentID = .ok (some Vbe.Index.deletedInfo) :=
    IndexBlob.GetInfo_single entries
  rw [same]
  simp only [getContent,List.map_cons,List.map_nil,found]
  rfl

/-- The second file is missing. -/
theorem loaded_use (watermark : Int) :
    loaded.use nothingMapped [[1],[2]] watermark =
      (some (.unableToOpen [2] (.notFoundInCache [2])),{ loaded with deletionWatermark := watermark }) := by
  obtain ⟨file,entries,same⟩ := loaded_merged
  rw [same]
  rfl

/-- A switch that fails hides the deleted content. -/
theorem use_failed_hides : ¬∀ c, Reached c → ∀ q files watermark e, (c.use q files watermark).1 = some e →
    ∀ id, (c.use q files watermark).2.getContent id = c.getContent id := by
  intro unchanged
  have reached : Reached loaded := .addIndexBlob _ _ _ _ (.new false false)
  have same := unchanged loaded reached nothingMapped [[1],[2]] 1700000000 _ (by rw [loaded_use])
    Vbe.Index.deletedInfo.contentID
  rw [loaded_use,loaded_getContent] at same
  obtain ⟨file,entries,merged⟩ := loaded_merged
  have found : Merged.GetInfo [file.index.toOpenedIndex] Vbe.Index.deletedInfo.contentID = .ok (some Vbe.Index.deletedInfo) :=
    IndexBlob.GetInfo_single entries
  simp only [merged,getContent,List.map_cons,List.map_nil,found] at same
  contradiction

theorem use_failed_unchanged_loaded :
    (∀ id, (loaded.use nothingMapped [[1],[2]] (-62135596800)).2.getContent id = loaded.getContent id) ∧
      (∀ r, (loaded.use nothingMapped [[1],[2]] (-62135596800)).2.listContents r = loaded.listContents r) ∧
      ∀ h, (loaded.use nothingMapped [[1],[2]] (-62135596800)).2.InUse h →
        (loaded.use nothingMapped [[1],[2]] (-62135596800)).2.Closed h → loaded.Closed h := by
  have reached : Reached loaded := .addIndexBlob _ _ _ _ (.new false false)
  obtain ⟨file,entries,merged⟩ := loaded_merged
  have watermark : loaded.deletionWatermark = -62135596800 := by rw [merged]
  refine (use_failed_unchanged reached nothingMapped [[1],[2]] (-62135596800) (by rw [loaded_use])).mpr fun info _ _ => ?_
  rw [watermark]

end CommittedContentIndex

end Vbe.Content
