import Vbe.Caching.Blobs
import Vbe.Library.Runs

/-! Markers of own writes in front of a provider whose lists lag behind. -/
namespace Vbe.Caching.OwnWrites
open Vbe.Index (Bytes BlobID)
open Vbe.Library.Runs

def sweepFrequency : Time := 5 * 60 * 1000000000

/-- "add" -/
def prefixAdd : Bytes := [97,100,100]

/-- "del" -/
def prefixDelete : Bytes := [100,101,108]

def markerLength : Nat := 6

structure PutOptions where
  RetentionMode : Bytes
  RetentionPeriod : Time
  DoNotRecreate : Bool
  SetModTime : Option Time
deriving DecidableEq

namespace PutOptions

def HasRetentionOptions (o : PutOptions) : Bool := o.RetentionPeriod ≠ 0 || o.RetentionMode ≠ []

def none : PutOptions := ⟨[],0,false,Option.none⟩

end PutOptions

structure CacheStorage where
  prefixes : List BlobID
  cacheDuration : Time

namespace CacheStorage

def isCachedPrefix (s : CacheStorage) (blobID : BlobID) : Bool := s.prefixes.any (·.isPrefixOf blobID)

end CacheStorage

/-- The provider, with the times of the last writes, and the storage of markers. -/
structure World where
  blobs : List Metadata
  putAt : BlobID → Time
  deletedAt : BlobID → Option Time
  markers : List Metadata
  nextSweepTime : Time
  now : Time

/-- The directory that keeps the markers does not support every option. -/
def putMarker (markers : List Metadata) (blobID : BlobID) (opts : PutOptions) (now : Time) : List Metadata :=
  if opts.HasRetentionOptions then markers
  else if opts.DoNotRecreate then markers
  else (Write.put ⟨blobID,markerLength,opts.SetModTime.getD now⟩).apply markers

/-- A call, with what its surroundings do: whether the provider fails it, how long it waits before it writes a marker or
lists the provider, whether the marker can be written, which markers cannot be deleted, and what the provider lists. -/
inductive Label
  | PutBlob (blob : Metadata) (opts : PutOptions) (ok : Bool) (elapsed : Nat) (marked : Bool)
  | DeleteBlob (blobID : BlobID) (ok : Bool) (elapsed : Nat) (marked : Bool)
  | ListBlobs (p : BlobID) (kept : List BlobID) (elapsed : Nat) (listed : List Metadata)
  | passes (time : Nat)
deriving DecidableEq

variable (s : CacheStorage)

def maybeSweepCache (w : World) (kept : List BlobID) : World :=
  if w.now > w.nextSweepTime then
    { w with
      nextSweepTime := w.now + sweepFrequency
      markers := w.markers.filter fun m => w.now - m.Timestamp < s.cacheDuration ∨ m.BlobID ∈ kept }
  else w

/-- The names of marked blobs with the times of their markers. -/
def cached (w : World) (kind : Bytes) (p : BlobID) : List Metadata :=
  (w.markers.filter fun m => (kind ++ p).isPrefixOf m.BlobID).map fun m => { m with BlobID := m.BlobID.drop kind.length }

def cachedDeletionsSet (w : World) (p : BlobID) : List Metadata := cached w prefixDelete p

/-- The created blobs that were not deleted later. -/
def cachedCreatedSet (w : World) (p : BlobID) : List Metadata :=
  (cached w prefixAdd p).filter fun created =>
    !(cachedDeletionsSet w p).any fun deleted => deleted.BlobID = created.BlobID && deleted.Timestamp > created.Timestamp

def GetMetadata (w : World) (blobID : BlobID) : Option Metadata := w.blobs.find? (·.BlobID = blobID)

/-- What `ListBlobs` reports after the sweep, given what the provider lists. -/
def reported (w : World) (p : BlobID) (listed : List Metadata) : List Metadata :=
  let provided := listed.filter fun bm => !(cachedDeletionsSet w p).any (·.BlobID = bm.BlobID)
  let remaining := (cachedCreatedSet w p).filter fun created => !provided.any (·.BlobID = created.BlobID)
  provided ++ remaining.filterMap fun created => GetMetadata w created.BlobID

/-- A list of the provider may lack what was put, and may have what was deleted, less than the cache duration ago. -/
def Permitted (w : World) (p : BlobID) (listed : List Metadata) (time : Time) : Prop :=
  (listed.map (·.BlobID)).Nodup ∧
    (∀ bm ∈ listed, p.isPrefixOf bm.BlobID ∧
      (bm.BlobID ∈ w.blobs.map (·.BlobID) ∨ (w.deletedAt bm.BlobID).any fun deleted => time - deleted < s.cacheDuration)) ∧
    ∀ b ∈ w.blobs, p.isPrefixOf b.BlobID → b.BlobID ∈ listed.map (·.BlobID) ∨ time - w.putAt b.BlobID < s.cacheDuration

instance (w : World) (p : BlobID) (listed : List Metadata) (time : Time) : Decidable (Permitted s w p listed time) := by
  unfold Permitted
  infer_instance

def step (w : World) : Label → Option World
  | .PutBlob blob opts ok elapsed marked =>
    if ok then
      if opts.DoNotRecreate ∧ blob.BlobID ∈ w.blobs.map (·.BlobID) then none
      else some { w with
        blobs := (Write.put blob).apply w.blobs
        putAt := Function.update w.putAt blob.BlobID w.now
        now := w.now + elapsed
        markers :=
          if s.isCachedPrefix blob.BlobID ∧ marked then putMarker w.markers (prefixAdd ++ blob.BlobID) opts (w.now + elapsed)
          else w.markers }
    else some { w with now := w.now + elapsed }
  | .DeleteBlob blobID ok elapsed marked =>
    if ok then
      some { w with
        blobs := (Write.delete blobID).apply w.blobs
        deletedAt := Function.update w.deletedAt blobID (some w.now)
        now := w.now + elapsed
        markers :=
          if s.isCachedPrefix blobID ∧ marked then putMarker w.markers (prefixDelete ++ blobID) .none (w.now + elapsed)
          else w.markers }
    else some { w with now := w.now + elapsed }
  | .ListBlobs p kept elapsed listed =>
    if Permitted s w p listed (w.now + elapsed) then some { maybeSweepCache s w kept with now := w.now + elapsed } else none
  | .passes time => some { w with now := w.now + time }

/-- What a call does to a blob: whether it is stored afterwards. -/
def Label.leaves (blobID : BlobID) (before : Bool) : Label → Bool
  | .PutBlob blob _ true _ _ => if blob.BlobID = blobID then true else before
  | .DeleteBlob deleted true _ _ => if deleted = blobID then false else before
  | _ => before

/-- Whether the last successful write to a blob was a put, `before` if there was none. -/
def lastPut (labels : List Label) (blobID : BlobID) (before : Bool) : Bool := labels.foldl (fun before l => l.leaves blobID before) before

/-- Every marker of a write is written, with the time of the write, and no sweep leaves the deletion marker of a blob
while it deletes the other one. -/
def Marked (_ : World) : Label → Prop
  | .PutBlob blob opts ok _ marked => ok ∧ s.isCachedPrefix blob.BlobID →
    marked ∧ ¬ opts.HasRetentionOptions ∧ ¬ opts.DoNotRecreate ∧ opts.SetModTime = none
  | .DeleteBlob blobID ok _ marked => ok ∧ s.isCachedPrefix blobID → marked
  | .ListBlobs _ kept _ _ => ∀ name ∈ kept, prefixDelete.isPrefixOf name → prefixAdd ++ name.drop 3 ∈ kept
  | .passes _ => True

section Markers
variable {s} {w : World} {markers : List Metadata} {blobID : BlobID} {m m' : Metadata}

def markedAt (markers : List Metadata) (name : BlobID) (time : Time) : Prop :=
  ∃ m ∈ markers, m.BlobID = name ∧ time ≤ m.Timestamp

theorem add_ne_delete (blobID other : BlobID) : prefixAdd ++ blobID ≠ prefixDelete ++ other := by
  simp [prefixAdd,prefixDelete]

/-- Markers of one name are one. -/
theorem unique_marker (nodup : (markers.map (·.BlobID)).Nodup) (left : m ∈ markers) (right : m' ∈ markers)
    (same : m.BlobID = m'.BlobID) : m = m' :=
  List.inj_on_of_nodup_map nodup left right same

theorem putMarker_plain (markers : List Metadata) (blobID : BlobID) {opts : PutOptions} (now : Time) (retention : ¬ opts.HasRetentionOptions)
    (recreates : ¬ opts.DoNotRecreate) (unset : opts.SetModTime = none) :
    putMarker markers blobID opts now = (Write.put ⟨blobID,markerLength,now⟩).apply markers := by
  rw [putMarker,if_neg retention,if_neg recreates,unset,Option.getD_none]

theorem markedAt_put {name other : BlobID} {time now : Time} (old : other ≠ name) :
    markedAt ((Write.put ⟨name,markerLength,now⟩).apply markers) other time ↔ markedAt markers other time := by
  constructor
  · rintro ⟨m,member,named,late⟩
    rcases mem_apply_put.mp member with rfl | ⟨before,_⟩
    · exact absurd named.symm old
    · exact ⟨m,before,named,late⟩
  · rintro ⟨m,member,named,late⟩
    exact ⟨m,mem_apply_put.mpr (.inr ⟨member,named ▸ old⟩),named,late⟩

theorem markedAt_put_self {name : BlobID} {time now : Time} :
    markedAt ((Write.put ⟨name,markerLength,now⟩).apply markers) name time ↔ time ≤ now := by
  constructor
  · rintro ⟨m,member,named,late⟩
    rcases mem_apply_put.mp member with rfl | ⟨_,other⟩
    · exact late
    · exact absurd named other
  · intro early
    exact ⟨_,mem_apply_put.mpr (.inl rfl),rfl,early⟩

theorem mem_cached {kind p : BlobID} :
    m ∈ cached w kind p ↔ p <+: m.BlobID ∧ { m with BlobID := kind ++ m.BlobID } ∈ w.markers := by
  simp only [cached,List.mem_map,List.mem_filter,List.isPrefixOf_iff_prefix]
  constructor
  · rintro ⟨marker,⟨member,rest,split⟩,rfl⟩
    have name : marker.BlobID = kind ++ (p ++ rest) := by rw [← split,List.append_assoc]
    simp only [name,List.drop_left]
    refine ⟨⟨rest,rfl⟩,?_⟩
    rw [← name]
    exact member
  · rintro ⟨⟨rest,split⟩,member⟩
    refine ⟨_,⟨member,⟨rest,by rw [← split,List.append_assoc]⟩⟩,?_⟩
    simp

/-- A blob is marked as deleted within a prefix it has exactly when it has a marker. -/
theorem any_deletion {p : BlobID} (inside : p <+: blobID) :
    (cachedDeletionsSet w p).any (·.BlobID = blobID) ↔ ∃ m ∈ w.markers, m.BlobID = prefixDelete ++ blobID := by
  rw [List.any_eq_true]
  constructor
  · rintro ⟨m,member,same⟩
    obtain rfl := of_decide_eq_true same
    exact ⟨_,(mem_cached.mp member).2,rfl⟩
  · rintro ⟨m,member,named⟩
    refine ⟨{ m with BlobID := blobID },mem_cached.mpr ⟨inside,?_⟩,decide_eq_true rfl⟩
    rw [← named]
    exact member

end Markers

def World.stores (w : World) (blobID : BlobID) : Prop := blobID ∈ w.blobs.map (·.BlobID)

instance (w : World) (blobID : BlobID) : Decidable (w.stores blobID) :=
  inferInstanceAs (Decidable (blobID ∈ w.blobs.map (·.BlobID)))

/-- A recent write has its marker, and a stored blob that is marked as deleted is marked as created no earlier. -/
structure Inv (w : World) : Prop where
  nodup : (w.markers.map (·.BlobID)).Nodup
  stamped : ∀ m ∈ w.markers, m.Timestamp ≤ w.now
  created : ∀ blobID, s.isCachedPrefix blobID → w.stores blobID → w.now - w.putAt blobID < s.cacheDuration →
    markedAt w.markers (prefixAdd ++ blobID) (w.putAt blobID)
  recreated : ∀ blobID, s.isCachedPrefix blobID → w.stores blobID → ∀ time, markedAt w.markers (prefixDelete ++ blobID) time →
    markedAt w.markers (prefixAdd ++ blobID) time
  deleted : ∀ blobID, s.isCachedPrefix blobID → ¬ w.stores blobID → ∀ time, w.deletedAt blobID = some time →
    w.now - time < s.cacheDuration → markedAt w.markers (prefixDelete ++ blobID) time

/-- No markers, and no write of the past that the provider may still lag behind. -/
structure World.Settled (w : World) : Prop where
  unmarked : w.markers = []
  put : ∀ blobID, w.stores blobID → s.cacheDuration ≤ w.now - w.putAt blobID
  deleted : ∀ blobID time, w.deletedAt blobID = some time → s.cacheDuration ≤ w.now - time

section Steps
variable {s} {w w' : World} {blobID : BlobID}

theorem World.Settled.inv (settled : w.Settled s) : Inv s w := by
  have none (name : BlobID) (time : Time) : ¬ markedAt w.markers name time := by simp [markedAt,settled.unmarked]
  refine ⟨by simp [settled.unmarked],by simp [settled.unmarked],?_,?_,?_⟩
  · intro blobID _ stored recent
    exact absurd (settled.put blobID stored) (not_le.mpr recent)
  · intro blobID _ _ time marked
    exact absurd marked (none _ _)
  · intro blobID _ _ time at' recent
    exact absurd (settled.deleted blobID time at') (not_le.mpr recent)

theorem Inv.later (inv : Inv s w) (elapsed : Nat) : Inv s { w with now := w.now + elapsed } := by
  have earlier {time : Time} (recent : w.now + elapsed - time < s.cacheDuration) : w.now - time < s.cacheDuration :=
    lt_of_le_of_lt (sub_le_sub_right (le_add_of_nonneg_right (Int.natCast_nonneg elapsed)) time) recent
  refine ⟨inv.nodup,?_,?_,inv.recreated,?_⟩
  · intro m member
    exact (inv.stamped m member).trans (by simp)
  · intro blobID cached stored recent
    exact inv.created blobID cached stored (earlier recent)
  · intro blobID cached gone time at' recent
    exact inv.deleted blobID cached gone time at' (earlier recent)

/-- A sweep keeps the markers of recent writes. -/
theorem Inv.sweep (inv : Inv s w) {kept : List BlobID}
    (together : ∀ name ∈ kept, prefixDelete.isPrefixOf name → prefixAdd ++ name.drop 3 ∈ kept) : Inv s (maybeSweepCache s w kept) := by
  rw [maybeSweepCache]
  split
  · have recent {name : BlobID} {time : Time} (late : w.now - time < s.cacheDuration) (marked : markedAt w.markers name time) :
        markedAt (w.markers.filter fun m => w.now - m.Timestamp < s.cacheDuration ∨ m.BlobID ∈ kept) name time := by
      obtain ⟨m,member,named,after⟩ := marked
      refine ⟨m,List.mem_filter.mpr ⟨member,?_⟩,named,after⟩
      have young : w.now - m.Timestamp < s.cacheDuration := lt_of_le_of_lt (sub_le_sub_left after _) late
      simp [young]
    refine ⟨inv.nodup.sublist (List.filter_sublist.map _),?_,?_,?_,?_⟩
    · intro m member
      exact inv.stamped m (List.mem_filter.mp member).1
    · intro blobID cached stored late
      exact recent late (inv.created blobID cached stored late)
    · rintro blobID cached stored time ⟨d,member,named,after⟩
      obtain ⟨there,stays⟩ := List.mem_filter.mp member
      obtain ⟨a,created,same,later⟩ := inv.recreated blobID cached stored d.Timestamp ⟨d,there,named,le_rfl⟩
      refine ⟨a,List.mem_filter.mpr ⟨created,?_⟩,same,after.trans later⟩
      rcases of_decide_eq_true stays with young | unswept
      · have younger : w.now - a.Timestamp < s.cacheDuration := lt_of_le_of_lt (sub_le_sub_left later _) young
        simp [younger]
      · have paired := together _ unswept (by rw [named,List.isPrefixOf_iff_prefix]; exact List.prefix_append ..)
        rw [named,show (3 : Nat) = prefixDelete.length from rfl,List.drop_left,← same] at paired
        simp [paired]
    · intro blobID cached gone time at' late
      exact recent late (inv.deleted blobID cached gone time at' late)
  · exact inv

theorem now_sweep (w : World) (kept : List BlobID) : (maybeSweepCache s w kept).now = w.now := by
  rw [maybeSweepCache]
  split
  · rfl
  · rfl

theorem stores_put {blob : Metadata} {putAt : BlobID → Time} {markers : List Metadata} {now : Time} :
    World.stores { w with blobs := (Write.put blob).apply w.blobs, putAt := putAt, now := now, markers := markers } blobID ↔
      blobID = blob.BlobID ∨ w.stores blobID := by
  simp only [World.stores,List.mem_map,mem_apply_put]
  constructor
  · rintro ⟨m,rfl | ⟨member,_⟩,rfl⟩
    · exact .inl rfl
    · exact .inr ⟨m,member,rfl⟩
  · rintro (rfl | ⟨m,member,rfl⟩)
    · exact ⟨blob,.inl rfl,rfl⟩
    · by_cases same : m.BlobID = blob.BlobID
      · exact ⟨blob,.inl rfl,same.symm⟩
      · exact ⟨m,.inr ⟨member,same⟩,rfl⟩

theorem stores_delete {name : BlobID} {deletedAt : BlobID → Option Time} {markers : List Metadata} {now : Time} :
    World.stores { w with blobs := (Write.delete name).apply w.blobs, deletedAt := deletedAt, now := now, markers := markers } blobID ↔
      blobID ≠ name ∧ w.stores blobID := by
  simp only [World.stores,List.mem_map,mem_apply_delete]
  constructor
  · rintro ⟨m,⟨member,other⟩,rfl⟩
    exact ⟨other,m,member,rfl⟩
  · rintro ⟨other,m,member,rfl⟩
    exact ⟨m,⟨member,other⟩,rfl⟩

/-- The markers after one was written, or none if the blob is in no cached prefix. -/
def noted (s : CacheStorage) (markers : List Metadata) (kind : Bytes) (blobID : BlobID) (now : Time) : List Metadata :=
  if s.isCachedPrefix blobID then (Write.put ⟨kind ++ blobID,markerLength,now⟩).apply markers else markers

theorem nodup_noted {markers : List Metadata} (nodup : (markers.map (·.BlobID)).Nodup) (kind : Bytes) (blobID : BlobID) (now : Time) :
    ((noted s markers kind blobID now).map (·.BlobID)).Nodup := by
  rw [noted]
  split
  · exact nodup_apply nodup _
  · exact nodup

theorem stamped_noted {markers : List Metadata} {time now : Time} (stamped : ∀ m ∈ markers, m.Timestamp ≤ time) (later : time ≤ now)
    (kind : Bytes) (blobID : BlobID) : ∀ m ∈ noted s markers kind blobID now, m.Timestamp ≤ now := by
  intro m member
  rw [noted] at member
  split at member
  · rcases mem_apply_put.mp member with rfl | ⟨before,_⟩
    · exact le_rfl
    · exact (stamped m before).trans later
  · exact (stamped m member).trans later

theorem markedAt_noted {markers : List Metadata} {kind name : BlobID} {time now : Time} (other : name ≠ kind ++ blobID) :
    markedAt (noted s markers kind blobID now) name time ↔ markedAt markers name time := by
  rw [noted]
  split
  · exact markedAt_put other
  · exact Iff.rfl

theorem markedAt_noted_self {markers : List Metadata} {kind : Bytes} {time now : Time} (cached : s.isCachedPrefix blobID) :
    markedAt (noted s markers kind blobID now) (kind ++ blobID) time ↔ time ≤ now := by
  rw [noted,if_pos cached]
  exact markedAt_put_self

theorem Inv.put (inv : Inv s w) (blob : Metadata) (elapsed : Nat) : Inv s { w with
    blobs := (Write.put blob).apply w.blobs
    putAt := Function.update w.putAt blob.BlobID w.now
    now := w.now + elapsed
    markers := noted s w.markers prefixAdd blob.BlobID (w.now + elapsed) } := by
  have later : w.now ≤ w.now + elapsed := le_add_of_nonneg_right (Int.natCast_nonneg elapsed)
  have unmarked {blobID : BlobID} {time : Time} :
      markedAt (noted s w.markers prefixAdd blob.BlobID (w.now + elapsed)) (prefixDelete ++ blobID) time ↔
        markedAt w.markers (prefixDelete ++ blobID) time := markedAt_noted (add_ne_delete _ _).symm
  have untouched {blobID : BlobID} (other : blobID ≠ blob.BlobID) {time : Time} :
      markedAt (noted s w.markers prefixAdd blob.BlobID (w.now + elapsed)) (prefixAdd ++ blobID) time ↔
        markedAt w.markers (prefixAdd ++ blobID) time := markedAt_noted (by simpa using other)
  have before := inv.later elapsed
  refine ⟨nodup_noted inv.nodup ..,stamped_noted inv.stamped later _ _,?_,?_,?_⟩
  · intro blobID cached stored recent
    by_cases here : blobID = blob.BlobID
    · subst here
      exact (markedAt_noted_self cached).mpr (by simp)
    · simp only [Function.update_of_ne here] at recent ⊢
      exact (untouched here).mpr (before.created blobID cached ((stores_put.mp stored).resolve_left here) recent)
  · intro blobID cached stored time marked
    have old := unmarked.mp marked
    by_cases here : blobID = blob.BlobID
    · subst here
      obtain ⟨m,member,_,after⟩ := old
      exact (markedAt_noted_self cached).mpr ((after.trans (inv.stamped m member)).trans later)
    · exact (untouched here).mpr (inv.recreated blobID cached ((stores_put.mp stored).resolve_left here) time old)
  · intro blobID cached gone time at' recent
    exact unmarked.mpr (before.deleted blobID cached (fun stored => gone (stores_put.mpr (.inr stored))) time at' recent)

theorem Inv.delete (inv : Inv s w) (name : BlobID) (elapsed : Nat) : Inv s { w with
    blobs := (Write.delete name).apply w.blobs
    deletedAt := Function.update w.deletedAt name (some w.now)
    now := w.now + elapsed
    markers := noted s w.markers prefixDelete name (w.now + elapsed) } := by
  have later : w.now ≤ w.now + elapsed := le_add_of_nonneg_right (Int.natCast_nonneg elapsed)
  have marked {blobID : BlobID} {time : Time} :
      markedAt (noted s w.markers prefixDelete name (w.now + elapsed)) (prefixAdd ++ blobID) time ↔
        markedAt w.markers (prefixAdd ++ blobID) time := markedAt_noted (add_ne_delete _ _)
  have untouched {blobID : BlobID} (other : blobID ≠ name) {time : Time} :
      markedAt (noted s w.markers prefixDelete name (w.now + elapsed)) (prefixDelete ++ blobID) time ↔
        markedAt w.markers (prefixDelete ++ blobID) time := markedAt_noted (by simpa using other)
  have before := inv.later elapsed
  refine ⟨nodup_noted inv.nodup ..,stamped_noted inv.stamped later _ _,?_,?_,?_⟩
  · intro blobID cached stored recent
    exact marked.mpr (before.created blobID cached (stores_delete.mp stored).2 recent)
  · intro blobID cached stored time old
    obtain ⟨other,there⟩ := stores_delete.mp stored
    exact marked.mpr (inv.recreated blobID cached there time ((untouched other).mp old))
  · intro blobID cached gone time at' recent
    by_cases here : blobID = name
    · subst here
      obtain rfl : w.now = time := Option.some.inj ((Function.update_self (β := fun _ => Option Time) ..).symm.trans at')
      exact (markedAt_noted_self cached).mpr later
    · have old : w.deletedAt blobID = some time := (Function.update_of_ne here ..).symm.trans at'
      exact (untouched here).mpr (before.deleted blobID cached (fun stored => gone (stores_delete.mpr ⟨here,stored⟩)) time old recent)

/-- Every call that marks its writes keeps the invariant. -/
theorem Inv.step (l : Label) (inv : Inv s w) (marks : Marked s w l) (taken : step s w l = some w') : Inv s w' := by
  cases l with
  | PutBlob blob opts ok elapsed marked =>
    cases ok with
    | false =>
      cases taken
      exact inv.later elapsed
    | true =>
      rw [OwnWrites.step,if_pos rfl] at taken
      split at taken
      · contradiction
      · obtain rfl := Option.some.inj taken
        have markers : (if s.isCachedPrefix blob.BlobID ∧ marked then putMarker w.markers (prefixAdd ++ blob.BlobID) opts (w.now + elapsed)
            else w.markers) = noted s w.markers prefixAdd blob.BlobID (w.now + elapsed) := by
          rw [noted]
          by_cases cached : s.isCachedPrefix blob.BlobID
          · obtain ⟨written,retention,recreates,unset⟩ := marks ⟨rfl,cached⟩
            rw [if_pos ⟨cached,written⟩,if_pos cached,putMarker_plain _ _ _ retention recreates unset]
          · rw [if_neg (fun both => cached both.1),if_neg cached]
        rw [markers]
        exact inv.put blob elapsed
  | DeleteBlob name ok elapsed marked =>
    cases ok with
    | false =>
      cases taken
      exact inv.later elapsed
    | true =>
      rw [OwnWrites.step,if_pos rfl] at taken
      obtain rfl := Option.some.inj taken
      have markers : (if s.isCachedPrefix name ∧ marked then putMarker w.markers (prefixDelete ++ name) .none (w.now + elapsed)
          else w.markers) = noted s w.markers prefixDelete name (w.now + elapsed) := by
        rw [noted]
        by_cases cached : s.isCachedPrefix name
        · rw [if_pos ⟨cached,marks ⟨rfl,cached⟩⟩,if_pos cached]
          rfl
        · rw [if_neg (fun both => cached both.1),if_neg cached]
      rw [markers]
      exact inv.delete name elapsed
  | ListBlobs p kept elapsed listed =>
    rw [OwnWrites.step] at taken
    split at taken
    · obtain rfl := Option.some.inj taken
      rw [← now_sweep w kept]
      exact (inv.sweep marks).later elapsed
    · contradiction
  | passes time =>
    cases taken
    exact inv.later time

end Steps

section Lists
variable {s} {start w : World} {p blobID : BlobID} {listed : List Metadata}

/-- A stored blob that is marked as created is no deleted one, as its last marker is of a put. -/
theorem Inv.mem_created (inv : Inv s w) (cached : s.isCachedPrefix blobID) (inside : p <+: blobID) (stored : w.stores blobID) {time : Time}
    (marked : markedAt w.markers (prefixAdd ++ blobID) time) : ∃ m ∈ cachedCreatedSet w p, m.BlobID = blobID := by
  obtain ⟨a,member,named,_⟩ := marked
  refine ⟨{ a with BlobID := blobID },List.mem_filter.mpr ⟨mem_cached.mpr ⟨inside,?_⟩,?_⟩,rfl⟩
  · rw [← named]
    exact member
  · rw [Bool.not_eq_true',List.any_eq_false]
    intro d deleted later
    obtain ⟨same,after⟩ := Bool.and_eq_true_iff.mp later
    obtain rfl := of_decide_eq_true same
    obtain ⟨a',member',named',before⟩ := inv.recreated d.BlobID cached stored d.Timestamp ⟨_,(mem_cached.mp deleted).2,rfl,le_rfl⟩
    obtain rfl := unique_marker inv.nodup member member' (named.trans named'.symm)
    exact absurd (of_decide_eq_true after) (not_lt.mpr before)

theorem mem_of_created {m : Metadata} (created : m ∈ cachedCreatedSet w p) : m ∈ cached w prefixAdd p :=
  (List.mem_filter.mp created).1

/-- Names of markers of one kind are names of blobs once each. -/
theorem nodup_cached (nodup : (w.markers.map (·.BlobID)).Nodup) (kind : Bytes) : ((cached w kind p).map (·.BlobID)).Nodup := by
  have names : ((cached w kind p).map (·.BlobID)).map (kind ++ ·) =
      (w.markers.filter fun m => (kind ++ p).isPrefixOf m.BlobID).map (·.BlobID) := by
    rw [cached,List.map_map,List.map_map]
    apply List.map_congr_left
    intro m member
    obtain ⟨rest,split⟩ := List.isPrefixOf_iff_prefix.mp (List.mem_filter.mp member).2
    simp only [Function.comp_apply]
    rw [← split,List.append_assoc,List.drop_left]
  apply List.Nodup.of_map (kind ++ ·)
  rw [names]
  exact nodup.sublist (List.filter_sublist.map _)

theorem GetMetadata_eq_some {m : Metadata} (found : GetMetadata w blobID = some m) : m ∈ w.blobs ∧ m.BlobID = blobID :=
  ⟨List.mem_of_find?_eq_some found,by simpa using List.find?_some found⟩

theorem GetMetadata_stored (stored : w.stores blobID) : ∃ m, GetMetadata w blobID = some m := by
  obtain ⟨m,member,same⟩ := List.mem_map.mp stored
  exact Option.isSome_iff_exists.mp (List.find?_isSome.mpr ⟨m,member,decide_eq_true same⟩)

theorem names_found (w : World) (created : List Metadata) :
    ((created.filterMap fun m => GetMetadata w m.BlobID).map (·.BlobID)).Sublist (created.map (·.BlobID)) := by
  induction created with
  | nil => exact .slnil
  | cons m created ih =>
    rw [List.filterMap_cons]
    split
    next missing => exact ih.cons _
    next found =>
      rw [List.map_cons,List.map_cons,(GetMetadata_eq_some found).2]
      exact ih.cons_cons _

/-- A list of a cached prefix is of the stored blobs. -/
theorem Inv.mem_reported (inv : Inv s w) (inside : ∃ q ∈ s.prefixes, q.isPrefixOf p) {elapsed : Nat}
    (permitted : Permitted s w p listed (w.now + elapsed)) :
    blobID ∈ (reported w p listed).map (·.BlobID) ↔ p <+: blobID ∧ w.stores blobID := by
  obtain ⟨q,known,short⟩ := inside
  have isCached {blobID : BlobID} (inside : p <+: blobID) : s.isCachedPrefix blobID :=
    List.any_eq_true.mpr ⟨q,known,List.isPrefixOf_iff_prefix.mpr ((List.isPrefixOf_iff_prefix.mp short).trans inside)⟩
  have earlier {time : Time} (recent : w.now + elapsed - time < s.cacheDuration) : w.now - time < s.cacheDuration :=
    lt_of_le_of_lt (sub_le_sub_right (le_add_of_nonneg_right (Int.natCast_nonneg elapsed)) time) recent
  obtain ⟨_,sound,complete⟩ := permitted
  simp only [reported,List.map_append,List.mem_append,List.mem_map,List.mem_filter,List.mem_filterMap]
  constructor
  · rintro (⟨bm,⟨member,undeleted⟩,rfl⟩ | ⟨bm,⟨created,⟨member,_⟩,found⟩,rfl⟩)
    · obtain ⟨within,there⟩ := sound bm member
      have within := List.isPrefixOf_iff_prefix.mp within
      refine ⟨within,?_⟩
      by_contra gone
      obtain ⟨time,at',recent⟩ := (Option.any_eq_true _ _).mp (there.resolve_left gone)
      obtain ⟨d,deleted,named,_⟩ := inv.deleted bm.BlobID (isCached within) gone time at' (earlier (of_decide_eq_true recent))
      rw [Bool.not_eq_true',← Bool.not_eq_true,any_deletion within] at undeleted
      exact undeleted ⟨d,deleted,named⟩
    · obtain ⟨stored,same⟩ := GetMetadata_eq_some found
      refine ⟨same ▸ (mem_cached.mp (mem_of_created member)).1,List.mem_map.mpr ⟨bm,stored,rfl⟩⟩
  · rintro ⟨within,stored⟩
    by_cases provided : ∃ bm, (bm ∈ listed ∧ (!(cachedDeletionsSet w p).any (·.BlobID = bm.BlobID)) = true) ∧ bm.BlobID = blobID
    · exact .inl provided
    · have marked : ∃ time, markedAt w.markers (prefixAdd ++ blobID) time := by
        obtain ⟨b,member,rfl⟩ := List.mem_map.mp stored
        rcases complete b member (List.isPrefixOf_iff_prefix.mpr within) with listed' | recent
        · obtain ⟨bm,there,same⟩ := List.mem_map.mp listed'
          have suppressed : (cachedDeletionsSet w p).any (·.BlobID = b.BlobID) := by
            by_contra undeleted
            refine provided ⟨bm,⟨there,?_⟩,same⟩
            rw [same,Bool.not_eq_true',← Bool.not_eq_true]
            exact undeleted
          obtain ⟨d,deleted,named⟩ := (any_deletion within).mp suppressed
          exact ⟨_,inv.recreated b.BlobID (isCached within) stored _ ⟨d,deleted,named,le_rfl⟩⟩
        · exact ⟨_,inv.created b.BlobID (isCached within) stored (earlier recent)⟩
      obtain ⟨time,marked⟩ := marked
      obtain ⟨created,member,rfl⟩ := inv.mem_created (isCached within) within stored marked
      obtain ⟨bm,found⟩ := GetMetadata_stored stored
      refine .inr ⟨bm,⟨created,⟨member,?_⟩,found⟩,(GetMetadata_eq_some found).2⟩
      rw [Bool.not_eq_true',List.any_eq_false]
      intro other there same
      exact provided ⟨other,List.mem_filter.mp there,of_decide_eq_true same⟩

/-- A list names a blob once. -/
theorem Inv.nodup_reported (inv : Inv s w) (nodup : (listed.map (·.BlobID)).Nodup) : ((reported w p listed).map (·.BlobID)).Nodup := by
  rw [reported,List.map_append]
  refine List.Nodup.append (nodup.sublist (List.filter_sublist.map _)) ?_ ?_
  · have created : ((cachedCreatedSet w p).map (·.BlobID)).Nodup :=
      (nodup_cached inv.nodup prefixAdd).sublist (List.filter_sublist.map _)
    exact created.sublist ((names_found w _).trans (List.filter_sublist.map _))
  · intro name provided remaining
    obtain ⟨bm,member,rfl⟩ := List.mem_map.mp provided
    obtain ⟨other,there,same⟩ := List.mem_map.mp remaining
    obtain ⟨created,kept,found⟩ := List.mem_filterMap.mp there
    have absent := (List.mem_filter.mp kept).2
    rw [Bool.not_eq_true',List.any_eq_false] at absent
    refine absent bm member (decide_eq_true ?_)
    rw [← same,(GetMetadata_eq_some found).2]

theorem stored_step {w' : World} {l : Label} (taken : step s w l = some w') :
    w'.stores blobID ↔ l.leaves blobID (decide (w.stores blobID)) = true := by
  cases l with
  | PutBlob blob opts ok elapsed marked =>
    cases ok with
    | false =>
      cases taken
      simp [Label.leaves,World.stores]
    | true =>
      rw [step,if_pos rfl] at taken
      split at taken
      · contradiction
      · obtain rfl := Option.some.inj taken
        rw [stores_put,Label.leaves]
        split
        next same => simp [same]
        next other => simp [Ne.symm other]
  | DeleteBlob name ok elapsed marked =>
    cases ok with
    | false =>
      cases taken
      simp [Label.leaves,World.stores]
    | true =>
      rw [step,if_pos rfl] at taken
      obtain rfl := Option.some.inj taken
      rw [stores_delete,Label.leaves]
      split
      next same => simp [same]
      next other => simp [Ne.symm other]
  | ListBlobs p kept elapsed listed =>
    rw [step] at taken
    split at taken
    · obtain rfl := Option.some.inj taken
      have same : (maybeSweepCache s w kept).blobs = w.blobs := by
        rw [maybeSweepCache]
        split
        · rfl
        · rfl
      simp [Label.leaves,World.stores,same]
    · contradiction
  | passes time =>
    cases taken
    simp [Label.leaves,World.stores]

/-- The blobs whose last write was a put are the stored ones. -/
theorem stored_run {labels : List Label} (reached : run (step s) start labels = some w) :
    w.stores blobID ↔ lastPut labels blobID (decide (start.stores blobID)) = true := by
  induction labels generalizing start with
  | nil =>
    cases Option.some.inj reached
    simp [lastPut]
  | cons l rest ih =>
    cases taken : step s start l with
    | none => simp [run,taken] at reached
    | some u =>
      rw [run_cons taken] at reached
      rw [ih reached,lastPut,lastPut,List.foldl_cons]
      have same : decide (u.stores blobID) = l.leaves blobID (decide (start.stores blobID)) := by
        rw [Bool.eq_iff_iff,decide_eq_true_eq]
        exact stored_step taken
      rw [same]

theorem permitted_sweep {kept : List BlobID} {time : Time} (permitted : Permitted s w p listed time) :
    Permitted s (maybeSweepCache s w kept) p listed time := by
  rw [maybeSweepCache]
  split
  · exact permitted
  · exact permitted

end Lists

section Examples

/-- One cached prefix, 'n'. -/
def cachesN : CacheStorage := ⟨[[110]],30⟩

def noBlobs : World := ⟨[],fun _ => 0,fun _ => none,[],0,1⟩

theorem noBlobs_settled : noBlobs.Settled cachesN :=
  ⟨rfl,fun _ stored => absurd stored (by simp [World.stores,noBlobs]),fun _ _ deleted => absurd deleted (by simp [noBlobs])⟩

instance (s : CacheStorage) (w : World) : ∀ l, Decidable (Marked s w l)
  | .PutBlob blob opts ok _ marked => inferInstanceAs (Decidable (ok ∧ s.isCachedPrefix blob.BlobID →
      marked ∧ ¬ opts.HasRetentionOptions ∧ ¬ opts.DoNotRecreate ∧ opts.SetModTime = none))
  | .DeleteBlob blobID ok _ marked => inferInstanceAs (Decidable (ok ∧ s.isCachedPrefix blobID → marked))
  | .ListBlobs _ kept _ _ => inferInstanceAs (Decidable (∀ name ∈ kept, prefixDelete.isPrefixOf name → prefixAdd ++ name.drop 3 ∈ kept))
  | .passes _ => instDecidableTrue

/-- A put, a delete and one more put, with options, of one blob. -/
def recreates (opts : PutOptions) : List Label :=
  [.PutBlob ⟨[110,49],5,1⟩ .none true 0 true,.DeleteBlob [110,49] true 1 true,.PutBlob ⟨[110,49],5,1⟩ opts true 0 true]

end Examples

end Vbe.Caching.OwnWrites
