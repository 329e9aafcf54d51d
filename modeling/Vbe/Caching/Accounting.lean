import Vbe.Caching.PersistentCache

/-! The bytes a persistent cache counts are those that are stored, and its sweeps keep them within
the limits, as long as items are recorded with the lengths of their blobs. -/
namespace Vbe.Caching.PersistentCache
open Vbe.Index (BlobID)
open Vbe.Library Vbe.Library.Runs

/-- A call has changed a blob and has still to change its item. -/
def unsettled : Option Call → BlobID → Bool
  | some (.put key _ _), blobID => key = blobID
  | some (.deleted key), blobID => key = blobID
  | _, _ => false

namespace World

def storedLength (w : World) (key : BlobID) : Option Int := (w.stored key).map fun blob => (blob.Length : Int)

/-- The stored bytes of the blobs that are tracked. -/
def trackedBytes (w : World) : Int := (w.listCache.data.map fun item => (w.storedLength item.BlobID).getD 0).sum

/-- No call has to change an item for what it did to the storage, no write in particular. -/
def Settled (w : World) : Prop := ∀ c key, unsettled (w.calls c) key = false

/-- Another call than `c` still has to change the item of a blob. -/
def disturbed (w : World) (c : Nat) (key : BlobID) : Bool :=
  (List.range w.next).any fun d => d ≠ c && unsettled (w.calls d) key

/-- The item that would be tracked has the length of its blob: the old one where that is not older, the new one elsewhere. -/
def records (w : World) (bm : CachedItem) : Bool :=
  match w.listCache.data.find? fun item => item.BlobID = bm.BlobID with
  | some old =>
    w.storedLength bm.BlobID = some (if old.Timestamp < bm.Timestamp then bm.Length else old.Length)
  | none => w.storedLength bm.BlobID = some bm.Length

end World

/-- A write or a touch is recorded with the length that its blob has, unless another call comes to change the item. -/
def Recorded (w : World) : Label → Prop
  | .advance c =>
    match w.calls c with
    | some (.put key length mtime) => w.disturbed c key || w.records ⟨key,length,mtime⟩
    | some (.touched key length mtime) => w.disturbed c key || w.records ⟨key,length,mtime⟩
    | _ => True
  | _ => True

/-- The tracked bytes and those about to be written are within the hard limit, and above the soft limit only while the
oldest item is too young. -/
structure Limited (p : PersistentCache) (w : World) : Prop where
  hard : 0 < p.sweep.LimitBytes → w.trackedBytes + w.pendingWriteBytes ≤ p.sweep.LimitBytes ∨ w.listCache.data = []
  soft : p.sweep.MaxSizeBytes < w.trackedBytes + w.pendingWriteBytes → ∀ oldest, w.listCache.data[0]? = some oldest →
    (∀ item ∈ w.listCache.data, oldest.Timestamp ≤ item.Timestamp) ∧
      Sub w.timeNow oldest.Timestamp < p.sweep.MinSweepAge

/-- The world in which a step sweeps, and the blobs it fails to delete. -/
def sweepOf (p : PersistentCache) (w : World) : Label → Option (World × List BlobID)
  | .sweepLocked failing => some (w,failing)
  | .Put _ data failing => some (room p data w,failing)
  | _ => none

section Storage
variable {w : World} {key blobID : BlobID} {b : Metadata}

theorem stored_put : (w.write (.put b)).stored key = if b.BlobID = key then some b else w.stored key := by
  unfold World.stored World.write Write.apply
  by_cases same : b.BlobID = key
  · rw [if_pos same,List.find?_cons_of_pos (by simpa using same)]
  · rw [if_neg same,List.find?_cons_of_neg (by simpa using same),List.find?_filter]
    congr 1
    funext m
    by_cases named : m.BlobID = key
    · simp [named,Ne.symm same]
    · simp [named]

theorem stored_delete : (w.write (.delete blobID)).stored key = if blobID = key then none else w.stored key := by
  unfold World.stored World.write Write.apply
  rw [List.find?_filter]
  by_cases same : blobID = key
  · rw [if_pos same,List.find?_eq_none]
    subst same
    simp
  · rw [if_neg same]
    congr 1
    funext m
    by_cases named : m.BlobID = key
    · simp [named,Ne.symm same]
    · simp [named]

theorem storedLength_put (other : b.BlobID ≠ key) : (w.write (.put b)).storedLength key = w.storedLength key := by
  rw [World.storedLength,stored_put,if_neg other,World.storedLength]

theorem storedLength_delete (other : blobID ≠ key) :
    (w.write (.delete blobID)).storedLength key = w.storedLength key := by
  rw [World.storedLength,stored_delete,if_neg other,World.storedLength]

end Storage

section Invariant
variable {p : PersistentCache} {w start : World} {items : List CachedItem} {c : Nat} {call : Call} {key : BlobID}

def Still (w : World) (key : BlobID) : Prop := ∀ c, unsettled (w.calls c) key = false

/-- Items have the lengths of their blobs, but for those that a call has still to change. -/
def Exact (w : World) (items : List CachedItem) : Prop :=
  ∀ item ∈ items, Still w item.BlobID → w.storedLength item.BlobID = some item.Length

structure Inv (w : World) : Prop where
  sound : w.listCache.Sound
  unused : ∀ c, w.next ≤ c → w.calls c = none
  exact : Exact w w.listCache.data

theorem calls_begin' (other : c ≠ w.next) : (w.begin' call).calls c = w.calls c := Function.update_of_ne other _ _

theorem calls_goes {d : Nat} {after : Option Call} (other : d ≠ c) : (w.goes c after).calls d = w.calls d :=
  Function.update_of_ne other _ _

@[simp] theorem calls_goes_self {after : Option Call} : (w.goes c after).calls c = after := Function.update_self ..

theorem Still.of_begin' (still : Still (w.begin' call) key) (unused : ∀ c, w.next ≤ c → w.calls c = none) :
    Still w key := by
  intro c
  by_cases same : c = w.next
  · rw [same,unused w.next (Nat.le_refl _)]
    rfl
  · exact calls_begin' same ▸ still c

theorem Still.of_goes {after : Option Call} (still : Still (w.goes c after) key)
    (settled : unsettled (w.calls c) key = false) : Still w key := by
  intro d
  by_cases same : d = c
  · rw [same]
    exact settled
  · exact calls_goes same ▸ still d

theorem Inv.begin' (inv : Inv w) (call : Call) : Inv (w.begin' call) where
  sound := inv.sound
  unused c later := by
    have further : w.next + 1 ≤ c := later
    rw [calls_begin' (by omega)]
    exact inv.unused c (by omega)
  exact item member still := inv.exact item member (still.of_begin' inv.unused)

/-- A call goes on: what it changed and left to change is all that may be inexact. -/
theorem Inv.goes {w' : World} {after : Option Call} (inv : Inv w) (running : w.calls c ≠ none)
    (calls : w'.calls = w.calls) (next : w'.next = w.next) (sound : w'.listCache.Sound)
    (exact : Exact (w'.goes c after) w'.listCache.data) : Inv (w'.goes c after) where
  sound := sound
  unused d later := by
    have further : w.next ≤ d := next ▸ later
    have other : d ≠ c := by
      rintro rfl
      exact running (inv.unused d further)
    rw [calls_goes other,calls]
    exact inv.unused d further
  exact := exact

/-- A blob is written, or deleted, by a call that has to change its item next. -/
theorem Inv.write {op : Write} {after : Call} (inv : Inv w) (running : w.calls c ≠ none)
    (settled : ∀ key, unsettled (w.calls c) key = false) (left : unsettled (some after) op.blobID = true) :
    Inv ((w.write op).goes c (some after)) := by
  refine inv.goes running rfl rfl inv.sound fun item member still => ?_
  have other : op.blobID ≠ item.BlobID := by
    rintro same
    have there := still c
    rw [calls_goes_self,← same,left] at there
    exact absurd there (by decide)
  have exact := inv.exact item member (Still.of_goes (w := w) still (settled _))
  cases op with
  | put b => exact (storedLength_put other).trans exact
  | delete blobID => exact (storedLength_delete other).trans exact

/-- A call ends, or goes on, without a change. -/
theorem Inv.leave {after : Option Call} (inv : Inv w) (running : w.calls c ≠ none)
    (settled : ∀ key, unsettled (w.calls c) key = false) : Inv (w.goes c after) :=
  inv.goes running rfl rfl inv.sound fun item member still => inv.exact item member (still.of_goes (settled _))

/-- The items with the name of a recorded one have the length of its blob. -/
theorem records_exact {bm item : CachedItem} (sound : w.listCache.Sound) (records : w.records bm = true)
    (member : item ∈ (w.listCache.AddOrUpdate bm).data) (same : item.BlobID = bm.BlobID) :
    w.storedLength bm.BlobID = some item.Length := by
  unfold World.records at records
  rcases sound.AddOrUpdate bm with ⟨old,there,named,newer,unchanged⟩ | ⟨newer,_,members⟩
  · rw [unchanged] at member
    obtain rfl : item = old := sound.same member there (same.trans named.symm)
    cases found : w.listCache.data.find? fun item => item.BlobID = bm.BlobID with
    | none => exact absurd same (by simpa using List.find?_eq_none.mp found item there)
    | some first =>
      obtain rfl : first = item := sound.same (List.mem_of_find?_eq_some found) there
        ((by simpa using List.find?_some found : first.BlobID = bm.BlobID).trans same.symm)
      simpa [found,Int.not_lt.mpr newer] using records
  · obtain rfl : item = bm := by
      rcases (members item).mp member with new | ⟨_,other⟩
      · exact new
      · exact absurd same other
    cases found : w.listCache.data.find? fun old => old.BlobID = item.BlobID with
    | none => simpa [found] using records
    | some old =>
      have older := newer old (List.mem_of_find?_eq_some found) (by simpa using List.find?_some found)
      simpa [found,older] using records

theorem disturbed_of_not_still {after : Option Call} (disturbed : w.disturbed c key = true) :
    ¬ Still (w.goes c after) key := by
  intro still
  obtain ⟨d,_,both⟩ := List.any_eq_true.mp disturbed
  simp only [Bool.and_eq_true,decide_eq_true_eq] at both
  have there := still d
  rw [calls_goes both.1,both.2] at there
  exact absurd there (by decide)

/-- A call records its item and ends. -/
theorem Inv.record {w' : World} {bm : CachedItem} (inv : Inv w) (running : w.calls c ≠ none)
    (own : ∀ key, key ≠ bm.BlobID → unsettled (w.calls c) key = false) (calls : w'.calls = w.calls)
    (next : w'.next = w.next) (storage : w'.cacheStorage = w.cacheStorage) (listed : w'.listCache = w.listCache)
    (recorded : (w.disturbed c bm.BlobID || w.records bm) = true) : Inv ((w'.AddOrUpdate bm).goes c none) := by
  have stored : ∀ key, w'.storedLength key = w.storedLength key := fun key => by
    simp only [World.storedLength,World.stored,storage]
  have kept := inv.sound.AddOrUpdate bm
  refine inv.goes running calls next ?_ fun item member still => ?_
  · change (w'.listCache.AddOrUpdate bm).Sound
    rw [listed]
    rcases kept with ⟨_,_,_,_,unchanged⟩ | ⟨_,sound,_⟩
    · rw [unchanged]
      exact inv.sound
    · exact sound
  · change item ∈ (w'.listCache.AddOrUpdate bm).data at member
    rw [listed] at member
    refine (stored item.BlobID).trans ?_
    have still' : Still (w.goes c none) item.BlobID := fun d => by
      have there := still d
      simp only [World.goes,World.AddOrUpdate,calls] at there
      exact there
    by_cases same : item.BlobID = bm.BlobID
    · rcases Bool.or_eq_true_iff.mp recorded with disturbed | records
      · exact absurd (same ▸ still') (disturbed_of_not_still disturbed)
      · exact same ▸ records_exact inv.sound records member same
    · refine inv.exact item ?_ (still'.of_goes (own _ same))
      rcases kept with ⟨_,_,_,_,unchanged⟩ | ⟨_,_,members⟩
      · exact unchanged ▸ member
      · rcases (members item).mp member with rfl | there
        · exact absurd rfl same
        · exact there.1

end Invariant

section Sweep
variable {p : PersistentCache} {start w : World} {u : List CachedItem} {failing : List BlobID} {oldest : CachedItem}

def lengths (u : List CachedItem) : Int := (u.map (·.Length)).sum

/-- What holds in the loop of a sweep: the items that could not be deleted are still stored. -/
structure Draining (start w : World) (u : List CachedItem) : Prop where
  calls : w.calls = start.calls
  next : w.next = start.next
  pending : w.pendingWriteBytes = start.pendingWriteBytes
  time : w.timeNow = start.timeNow
  sound : w.listCache.Sound
  names : ((u ++ w.listCache.data).map (·.BlobID)).Nodup
  exact : Exact w (u ++ w.listCache.data)

/-- A sweep ends when nothing is left, below the limits, or below the hard one with items that are too young. -/
def Stops (p : PersistentCache) (w : World) (u : List CachedItem) : Prop :=
  ∀ oldest, w.listCache.data[0]? = some oldest → aboveHardLimit p w (lengths u) = false ∧
    (aboveSoftLimit p w (lengths u) = true → Sub w.timeNow oldest.Timestamp < p.sweep.MinSweepAge)

theorem Draining.popped (draining : Draining start w u) (first : w.listCache.data[0]? = some oldest) :
    (u ++ [oldest] ++ w.listCache.Pop.data).Perm (u ++ w.listCache.data) := by
  rw [List.append_assoc]
  exact (draining.sound.Pop first).2.1.append_left u

theorem Draining.fails (draining : Draining start w u) (first : w.listCache.data[0]? = some oldest) :
    Draining start { w with listCache := w.listCache.Pop } (u ++ [oldest]) where
  calls := draining.calls
  next := draining.next
  pending := draining.pending
  time := draining.time
  sound := (draining.sound.Pop first).1
  names := ((draining.popped first).map _).nodup_iff.mpr draining.names
  exact item member still := draining.exact item ((draining.popped first).mem_iff.mp member) still

theorem Draining.deletes (draining : Draining start w u) (first : w.listCache.data[0]? = some oldest) :
    Draining start ({ w with listCache := w.listCache.Pop }.write (.delete oldest.BlobID)) u := by
  have failed := draining.fails first
  have middle : (u ++ [oldest] ++ w.listCache.Pop.data).Perm (oldest :: (u ++ w.listCache.Pop.data)) := by
    rw [List.append_assoc]
    exact List.perm_middle
  have names := List.nodup_cons.mp ((middle.map (·.BlobID)).nodup_iff.mp failed.names)
  refine ⟨failed.calls,failed.next,failed.pending,failed.time,failed.sound,names.2,fun item member still => ?_⟩
  have other : oldest.BlobID ≠ item.BlobID := fun same => names.1 (List.mem_map.mpr ⟨item,member,same.symm⟩)
  exact (storedLength_delete other).trans
    (failed.exact item (middle.mem_iff.mpr (List.mem_cons_of_mem oldest member)) still)

theorem drain_spec (fuel : Nat) (draining : Draining start w u) (enough : w.listCache.data.length ≤ fuel) :
    Draining start (drain p failing fuel w u (lengths u)).1 (drain p failing fuel w u (lengths u)).2 ∧
      Stops p (drain p failing fuel w u (lengths u)).1 (drain p failing fuel w u (lengths u)).2 := by
  induction fuel generalizing w u with
  | zero =>
    refine ⟨draining,fun oldest first => ?_⟩
    have inside := (List.getElem?_eq_some_iff.mp first).1
    simp only [drain] at inside
    omega
  | succ fuel ih =>
    rw [drain]
    split
    next none =>
      exact ⟨draining,fun oldest first => by simp [none] at first⟩
    next oldest first =>
      have shorter : w.listCache.Pop.data.length ≤ fuel := by
        have length := (draining.sound.Pop first).2.1.length_eq
        rw [List.length_cons] at length
        omega
      split
      next below =>
        simp only [Bool.and_eq_true,Bool.not_eq_true'] at below
        exact ⟨draining,fun _ _ => ⟨below.2,fun above => absurd (above.symm.trans below.1) (by decide)⟩⟩
      next =>
        split
        next young =>
          simp only [Bool.and_eq_true,Bool.not_eq_true',decide_eq_true_eq] at young
          refine ⟨draining,fun item there => ⟨young.2,fun _ => ?_⟩⟩
          exact Option.some.inj (first.symm.trans there) ▸ young.1
        next =>
          split
          next =>
            have sums : lengths u + oldest.Length = lengths (u ++ [oldest]) := by simp [lengths]
            rw [sums]
            exact ih (draining.fails first) shorter
          next => exact ih (draining.deletes first) shorter

theorem Inv.drained (inv : Inv w) (failing : List BlobID) :
    Draining w (drained p failing w).1 (drained p failing w).2 ∧ Stops p (drained p failing w).1 (drained p failing w).2 :=
  drain_spec _ ⟨rfl,rfl,rfl,rfl,inv.sound,inv.sound.names,inv.exact⟩ (Nat.le_refl _)

theorem Inv.sweep (inv : Inv w) (failing : List BlobID) : Inv (sweepLocked p failing w) := by
  obtain ⟨draining,_⟩ := inv.drained (p := p) failing
  obtain ⟨sound,members⟩ := draining.sound.Push_all draining.names
  refine ⟨sound,fun c later => ?_,fun item member still => ?_⟩
  · change (PersistentCache.drained p failing w).1.calls c = none
    rw [draining.calls]
    exact inv.unused c (draining.next ▸ later)
  · exact draining.exact item (List.mem_append.mpr ((members item).mp member)) still

/-- The tracked bytes are the total. -/
theorem Inv.tracked (inv : Inv w) (settled : w.Settled) : w.listCache.totalDataBytes = w.trackedBytes := by
  rw [inv.sound.total,World.trackedBytes]
  congr 1
  refine List.map_congr_left fun item member => ?_
  rw [inv.exact item member fun c => settled c item.BlobID]
  rfl

theorem Inv.limited (inv : Inv w) (settled : w.Settled) (failing : List BlobID)
    (all : (PersistentCache.drained p failing w).2 = []) : Limited p (sweepLocked p failing w) := by
  obtain ⟨draining,stops⟩ := inv.drained (p := p) failing
  have after : sweepLocked p failing w = (PersistentCache.drained p failing w).1 := by
    have shape : sweepLocked p failing w = { (PersistentCache.drained p failing w).1 with
        listCache := (PersistentCache.drained p failing w).2.foldl ContentMetadataHeap.Push
          (PersistentCache.drained p failing w).1.listCache } := rfl
    rw [shape,all]
    rfl
  have swept := inv.sweep (p := p) failing
  have tracked := swept.tracked fun c key => by
    rw [after,draining.calls]
    exact settled c key
  rw [after] at tracked swept ⊢
  rw [all] at stops
  have zero : lengths [] = 0 := rfl
  refine ⟨fun limited => ?_,fun above oldest first => ⟨fun item member => ?_,?_⟩⟩
  · cases first : (PersistentCache.drained p failing w).1.listCache.data[0]? with
    | none => exact Or.inr (List.eq_nil_of_length_eq_zero (by simpa using List.getElem?_eq_none_iff.mp first))
    | some oldest =>
      have below := (stops oldest first).1
      rw [zero,aboveHardLimit,if_neg (Int.not_le.mpr limited),decide_eq_false_iff_not] at below
      rw [← tracked]
      omega
  · exact (swept.sound.Pop first).2.2 item member
  · refine (stops oldest first).2 ?_
    rw [zero,aboveSoftLimit,decide_eq_true_eq,tracked]
    omega

end Sweep

section Steps
variable {p : PersistentCache} {w w' : World} {blobs : List Metadata}

theorem Inv.room (inv : Inv w) (data : Nat) : Inv (room p data w) := ⟨inv.sound,inv.unused,inv.exact⟩

/-- A touch leaves the lengths of the blobs. -/
theorem touch_length {blob : Metadata} {key : BlobID} (found : w.stored blob.BlobID = some blob) :
    (touch p w blob).1.storedLength key = w.storedLength key := by
  unfold touch
  split
  next => rfl
  next =>
    by_cases same : blob.BlobID = key
    · subst same
      rw [World.storedLength,stored_put,if_pos rfl,World.storedLength,found]
      rfl
    · exact storedLength_put same

theorem touch_frame (blob : Metadata) : (touch p w blob).1.calls = w.calls ∧ (touch p w blob).1.next = w.next ∧
    (touch p w blob).1.listCache = w.listCache := by
  unfold touch
  split
  next => exact ⟨rfl,rfl,rfl⟩
  next => exact ⟨rfl,rfl,rfl⟩

theorem Inv.touch {c : Nat} {key : BlobID} {length : Int} {blob : Metadata} (inv : Inv w)
    (running : w.calls c = some (.hit key length)) (found : w.stored key = some blob) :
    Inv ((PersistentCache.touch p w blob).1.goes c (some (.touched key length (PersistentCache.touch p w blob).2))) := by
  obtain ⟨calls,next,listed⟩ := touch_frame (p := p) (w := w) blob
  obtain rfl : blob.BlobID = key := by simpa using List.find?_some found
  refine inv.goes (by simp [running]) calls next (listed ▸ inv.sound) fun item member still => ?_
  refine (touch_length found).trans (inv.exact item (listed ▸ member) ?_)
  have before : Still (w.goes c (some (.touched blob.BlobID length (PersistentCache.touch p w blob).2))) item.BlobID := by
    intro d
    have there := still d
    simp only [World.goes,calls] at there
    exact there
  exact before.of_goes (by rw [running]; rfl)

theorem Inv.step (inv : Inv w) (l : Label) (recorded : Recorded w l) (taken : step p w l = some w') : Inv w' := by
  cases l with
  | sweepLocked failing =>
    cases Option.some.inj taken
    exact inv.sweep failing
  | Put key data failing =>
    cases Option.some.inj taken
    exact ((inv.room data).sweep failing).begin' _
  | GetPartial key length readable verified =>
    cases Option.some.inj taken
    unfold GetPartial
    split
    next =>
      split
      next => exact inv.begin' _
      next => exact inv.begin' _
    next => exact inv
  | passes time =>
    cases Option.some.inj taken
    exact ⟨inv.sound,inv.unused,inv.exact⟩
  | fails c done =>
    obtain ⟨call,running,after⟩ := Option.bind_eq_some_iff.mp taken
    have going : w.calls c ≠ none := by simp [running]
    cases call with
    | putting key length =>
      cases done with
      | true =>
        cases Option.some.inj after
        exact inv.write going (by rw [running]; exact fun _ => rfl) (by simp [unsettled,Write.blobID])
      | false =>
        cases Option.some.inj after
        exact inv.leave going (by rw [running]; exact fun _ => rfl)
    | hit key length =>
      cases Option.some.inj after
      exact inv.leave going (by rw [running]; exact fun _ => rfl)
    | malformed key =>
      cases Option.some.inj after
      exact inv.leave going (by rw [running]; exact fun _ => rfl)
    | put key length mtime => cases after
    | touched key length mtime => cases after
    | deleted key => cases after
  | advance c =>
    obtain ⟨call,running,after⟩ := Option.map_eq_some_iff.mp taken
    have going : w.calls c ≠ none := by simp [running]
    subst after
    simp only [Recorded,running] at recorded
    cases call with
    | putting key length => exact inv.write going (by rw [running]; exact fun _ => rfl) (by simp [unsettled,Write.blobID])
    | malformed key => exact inv.write going (by rw [running]; exact fun _ => rfl) (by simp [unsettled,Write.blobID])
    | put key length mtime =>
      refine inv.record going (fun other differs => ?_) rfl rfl rfl rfl recorded
      rw [running]
      simpa [unsettled] using Ne.symm differs
    | touched key length mtime => exact inv.record going (by rw [running]; exact fun _ _ => rfl) rfl rfl rfl rfl recorded
    | hit key length =>
      unfold advance
      dsimp only
      split
      next blob found => exact inv.touch running found
      next => exact inv.leave going (by rw [running]; exact fun _ => rfl)
    | deleted key =>
      unfold advance
      dsimp only
      split
      next i found =>
        obtain ⟨sound,members⟩ := inv.sound.Remove found
        refine inv.goes going rfl rfl sound fun item member still => ?_
        have there := (members item).mp member
        refine inv.exact item there.1 (Still.of_goes (w := w) still ?_)
        rw [running]
        simpa [unsettled] using Ne.symm there.2
      next absent =>
        refine inv.goes going rfl rfl inv.sound fun item member still => ?_
        refine inv.exact item member (Still.of_goes (w := w) still ?_)
        rw [running]
        simpa [unsettled] using Ne.symm (ContentMetadataHeap.index_none.mp absent item member)

theorem inv_initialScan (names : (blobs.map (·.BlobID)).Nodup) (now : Int) : Inv (initialScan blobs now) := by
  have listed : (initialScan blobs now).listCache =
      (blobs.map fun it => (⟨it.BlobID,it.Length,it.Timestamp⟩ : CachedItem)).foldl ContentMetadataHeap.Push ⟨[],0⟩ := by
    rw [List.foldl_map]
    rfl
  obtain ⟨sound,members⟩ := ContentMetadataHeap.sound_empty.Push_all
    (l := blobs.map fun it => (⟨it.BlobID,it.Length,it.Timestamp⟩ : CachedItem)) (by
      rw [List.append_nil,List.map_map]
      exact names)
  rw [← listed] at sound members
  refine ⟨sound,fun _ _ => rfl,fun item member _ => ?_⟩
  obtain ⟨it,there,rfl⟩ := List.mem_map.mp (((members item).mp member).resolve_right (List.not_mem_nil))
  have found : (initialScan blobs now).stored it.BlobID = some it := by
    cases first : (initialScan blobs now).stored it.BlobID with
    | none => simpa using List.find?_eq_none.mp first it there
    | some other =>
      exact congrArg some (List.inj_on_of_nodup_map names (List.mem_of_find?_eq_some first) there
        (by simpa using List.find?_some first))
  rw [World.storedLength,found]
  rfl

/-- In every run of a cache that was started on any directory and records the lengths of the blobs, the total is that of
the tracked blobs whenever no call has to change an item, and every sweep that could delete what it tried keeps the limits. -/
theorem counts_stored_bytes (p : PersistentCache) (blobs : List Metadata) (names : (blobs.map (·.BlobID)).Nodup)
    (now : Int) (labels : List Label) (w : World) (meets : Meets (step p) Recorded (initialScan blobs now) labels)
    (reached : run (step p) (initialScan blobs now) labels = some w) (settled : w.Settled) :
    w.listCache.totalDataBytes = w.trackedBytes ∧
      ∀ l v failing w', sweepOf p w l = some (v,failing) → step p w l = some w' → (drained p failing v).2 = [] →
        Limited p w' := by
  have inv : Inv w :=
    invariant (fun _ l _ inv recorded taken => inv.step l recorded taken) (inv_initialScan names now) meets reached
  refine ⟨inv.tracked settled,fun l v failing w' sweeps taken all => ?_⟩
  cases l with
  | sweepLocked =>
    cases sweeps
    cases taken
    exact inv.limited settled failing all
  | Put key data =>
    cases sweeps
    cases taken
    have limited := (inv.room (p := p) data).limited (p := p) settled failing all
    exact ⟨limited.hard,limited.soft⟩
  | GetPartial | advance | fails | passes => cases sweeps

/-- A cache of 100 bytes, 200 at most, and blobs protected with two bytes. -/
def small : PersistentCache := ⟨⟨100,200,0,0⟩,2⟩

/-- A cache that was started on one blob of ten bytes. -/
def World.one (now : Int) : World := ⟨[⟨[1],10,0⟩],⟨[⟨[1],10,0⟩],10⟩,0,now,fun _ => none,0⟩

theorem initialScan_one (now : Int) : initialScan [⟨[1],10,0⟩] now = World.one now := by
  simp [initialScan,ContentMetadataHeap.Push_empty,World.one]

/-- Twenty bytes that are put into a cache of ten are counted with their protection. -/
theorem counts_stored_bytes_put : ∃ w, run (step small) (initialScan [⟨[1],10,0⟩] 5)
      [.Put [2] 20 [],.advance 0,.advance 0] = some w ∧
    w.listCache.totalDataBytes = 32 ∧ w.listCache.totalDataBytes = w.trackedBytes := by
  let calls (call : Call) : Nat → Option Call := Function.update (fun _ => none) 0 (some call)
  let put : World := ⟨[⟨[1],10,0⟩],⟨[⟨[1],10,0⟩],10⟩,22,5,calls (.putting [2] 22),1⟩
  let written : World := ⟨[⟨[2],22,5⟩,⟨[1],10,0⟩],⟨[⟨[1],10,0⟩],10⟩,22,5,calls (.put [2] 22 5),1⟩
  let recorded : World := ⟨[⟨[2],22,5⟩,⟨[1],10,0⟩],⟨[⟨[1],10,0⟩,⟨[2],22,5⟩],32⟩,0,5,fun _ => none,1⟩
  have puts : step small (initialScan [⟨[1],10,0⟩] 5) (.Put [2] 20 []) = some put := by
    rw [initialScan_one]
    rfl
  have writes : step small put (.advance 0) = some written := by
    simp [step,advance,World.write,World.goes,Write.apply,put,written,calls]
  have records : step small written (.advance 0) = some recorded := by
    simp [step,advance,World.goes,World.AddOrUpdate,ContentMetadataHeap.AddOrUpdate,ContentMetadataHeap.index,
      ContentMetadataHeap.Push,Heaps.Push,Heaps.up,Heaps.lessAt,Heaps.parent,ContentMetadataHeap.Less,written,recorded,
      calls]
  have reached : run (step small) (initialScan [⟨[1],10,0⟩] 5) [.Put [2] 20 [],.advance 0,.advance 0] = some recorded := by
    rw [run_cons puts,run_cons writes,run_cons records]
    rfl
  have exact : (written.disturbed 0 [2] || written.records ⟨[2],22,5⟩) = true := by decide
  have meets : Meets (step small) Recorded (initialScan [⟨[1],10,0⟩] 5) [.Put [2] 20 [],.advance 0,.advance 0] :=
    Meets.cons trivial puts (Meets.cons trivial writes (Meets.cons exact records trivial))
  exact ⟨recorded,reached,rfl,
    (counts_stored_bytes small _ (by decide) 5 _ recorded meets reached fun _ _ => rfl).1⟩

/-- A full read of a blob that is old enough to be touched makes the total that of a blob of length -1. -/
theorem full_read_forgets_length : ∃ w, run (step small) (initialScan [⟨[1],10,0⟩] 600000000000)
      [.GetFull [1] true true,.advance 0,.advance 0] = some w ∧
    (∀ c, w.calls c = none) ∧ w.listCache.totalDataBytes = -1 ∧ w.trackedBytes = 10 := by
  rw [initialScan_one]
  refine ⟨⟨[⟨[1],10,600000000000⟩],⟨[⟨[1],-1,600000000000⟩],-1⟩,0,600000000000,fun _ => none,1⟩,?_,fun _ => rfl,rfl,rfl⟩
  simp [run,step,Label.GetFull,GetPartial,World.stored,World.begin',advance,touch,Sub,small,SweepSettings.applyDefaults,
    DefaultTouchThreshold,World.write,World.goes,Write.apply,World.AddOrUpdate,ContentMetadataHeap.AddOrUpdate,
    ContentMetadataHeap.index,Heaps.Fix,Heaps.settle,Heaps.sinks,Heaps.up,World.one]

end Steps

end Vbe.Caching.PersistentCache
