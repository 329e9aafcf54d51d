import Vbe.Caching.MetadataHeap
import Vbe.Library.Runs
import Mathlib.Logic.Function.Basic

/-! A persistent cache, whose calls run in goroutines of their own. A sweep holds the mutex from
its start to its end; a call gives it up around its calls to the storage. -/
namespace Vbe.Caching
open Vbe.Index (BlobID)

structure SweepSettings where
  MaxSizeBytes : Int
  LimitBytes : Int
  MinSweepAge : Int
  TouchThreshold : Int

def DefaultTouchThreshold : Int := 600000000000

def SweepSettings.applyDefaults (s : SweepSettings) : SweepSettings :=
  if s.TouchThreshold = 0 then { s with TouchThreshold := DefaultTouchThreshold } else s

/-- What a cache is made with: its settings and the bytes that its protection adds to a blob. -/
structure PersistentCache where
  sweep : SweepSettings
  OverheadBytes : Nat

namespace PersistentCache

/-- Where a goroutine is in its call. -/
inductive Call
  | putting (key : BlobID) (length : Nat)
  | put (key : BlobID) (length : Nat) (mtime : Int)
  | hit (key : BlobID) (length : Int)
  | touched (key : BlobID) (length mtime : Int)
  | malformed (key : BlobID)
  | deleted (key : BlobID)
deriving DecidableEq

structure World where
  cacheStorage : List Metadata
  listCache : ContentMetadataHeap
  pendingWriteBytes : Int
  timeNow : Int
  calls : Nat → Option Call
  /-- The number of the next call. -/
  next : Nat

/-- What the goroutines and their surroundings do: a call begins, a call makes its next call to the storage or takes
the mutex once more, a call to the storage fails, and time passes. A sweep fails to delete the blobs it is given. -/
inductive Label
  | sweepLocked (failing : List BlobID)
  | Put (key : BlobID) (data : Nat) (failing : List BlobID)
  | GetPartial (key : BlobID) (length : Int) (readable verified : Bool)
  | advance (c : Nat)
  | fails (c : Nat) (done : Bool)
  | passes (time : Nat)

/-- A full read asks for a length of -1. -/
def Label.GetFull (key : BlobID) (readable verified : Bool) : Label := .GetPartial key (-1) readable verified

/-- The time of a write that failed. -/
def zeroTime : Int := -62135596800000000000

/-- A duration saturates. -/
def Sub (t u : Int) : Int := max (-9223372036854775808) (min 9223372036854775807 (t - u))

namespace World

def stored (w : World) (key : BlobID) : Option Metadata := w.cacheStorage.find? fun blob => blob.BlobID = key

def begin' (w : World) (call : Call) : World :=
  { w with calls := Function.update w.calls w.next (some call), next := w.next + 1 }

def goes (w : World) (c : Nat) (call : Option Call) : World := { w with calls := Function.update w.calls c call }

def write (w : World) (op : Write) : World := { w with cacheStorage := op.apply w.cacheStorage }

def AddOrUpdate (w : World) (bm : CachedItem) : World := { w with listCache := w.listCache.AddOrUpdate bm }

end World

section Sweeping
variable (p : PersistentCache)

def aboveSoftLimit (w : World) (extraBytes : Int) : Bool :=
  p.sweep.MaxSizeBytes < w.listCache.totalDataBytes + extraBytes + w.pendingWriteBytes

def aboveHardLimit (w : World) (extraBytes : Int) : Bool :=
  if p.sweep.LimitBytes ≤ 0 then false
  else p.sweep.LimitBytes < w.listCache.totalDataBytes + extraBytes + w.pendingWriteBytes

/-- The loop of a sweep, which examines at most as many items as there are. -/
def drain (failing : List BlobID) : Nat → World → List CachedItem → Int → World × List CachedItem
  | 0, w, unsuccessfulDeletes, _ => (w,unsuccessfulDeletes)
  | fuel + 1, w, unsuccessfulDeletes, unsuccessfulDeleteBytes =>
    match w.listCache.data[0]? with
    | none => (w,unsuccessfulDeletes)
    | some oldest =>
      if !aboveSoftLimit p w unsuccessfulDeleteBytes && !aboveHardLimit p w unsuccessfulDeleteBytes then
        (w,unsuccessfulDeletes)
      else if Sub w.timeNow oldest.Timestamp < p.sweep.MinSweepAge && !aboveHardLimit p w unsuccessfulDeleteBytes then
        (w,unsuccessfulDeletes)
      else
        let popped := { w with listCache := w.listCache.Pop }
        if oldest.BlobID ∈ failing then
          drain failing fuel popped (unsuccessfulDeletes ++ [oldest]) (unsuccessfulDeleteBytes + oldest.Length)
        else drain failing fuel (popped.write (.delete oldest.BlobID)) unsuccessfulDeletes unsuccessfulDeleteBytes

def drained (failing : List BlobID) (w : World) : World × List CachedItem :=
  drain p failing w.listCache.data.length w [] 0

/-- What could not be deleted goes back into the heap. -/
def sweepLocked (failing : List BlobID) (w : World) : World :=
  let (w,unsuccessfulDeletes) := drained p failing w
  { w with listCache := unsuccessfulDeletes.foldl ContentMetadataHeap.Push w.listCache }

/-- A write makes room for its bytes before it stores them. -/
def room (data : Nat) (w : World) : World :=
  { w with pendingWriteBytes := w.pendingWriteBytes + (data + p.OverheadBytes : Nat) }

/-- A blob is touched unless it is younger than the threshold. -/
def touch (w : World) (blob : Metadata) : World × Int :=
  if Sub w.timeNow blob.Timestamp < p.sweep.applyDefaults.TouchThreshold then (w,blob.Timestamp)
  else (w.write (.put { blob with Timestamp := w.timeNow }),w.timeNow)

/-- Partial reads are not verified. -/
def GetPartial (w : World) (key : BlobID) (length : Int) (readable verified : Bool) : World :=
  if readable && (w.stored key).isSome then
    if 0 ≤ length || verified then w.begin' (.hit key length) else w.begin' (.malformed key)
  else w

/-- The next call of a goroutine to the storage, or what it does once it has the mutex again. -/
def advance (w : World) (c : Nat) : Call → World
  | .putting key length => (w.write (.put ⟨key,length,w.timeNow⟩)).goes c (some (.put key length w.timeNow))
  | .put key length mtime =>
    ({ w with pendingWriteBytes := w.pendingWriteBytes - length }.AddOrUpdate ⟨key,length,mtime⟩).goes c none
  | .hit key length =>
    match w.stored key with
    | some blob =>
      let (w,mtime) := touch p w blob
      w.goes c (some (.touched key length mtime))
    | none => w.goes c none
  | .touched key length mtime => (w.AddOrUpdate ⟨key,length,mtime⟩).goes c none
  | .malformed key => (w.write (.delete key)).goes c (some (.deleted key))
  | .deleted key =>
    match w.listCache.index key with
    | some i => { w with listCache := w.listCache.Remove i }.goes c none
    | none => w.goes c none

/-- A write that fails may have been done all the same, and its item is tracked. -/
def fails (w : World) (c : Nat) (done : Bool) : Call → Option World
  | .putting key length =>
    if done then some ((w.write (.put ⟨key,length,w.timeNow⟩)).goes c (some (.put key length zeroTime)))
    else some (w.goes c (some (.put key length zeroTime)))
  | .hit _ _ | .malformed _ => some (w.goes c none)
  | _ => none

def step (w : World) : Label → Option World
  | .sweepLocked failing => some (sweepLocked p failing w)
  | .Put key data failing => some ((sweepLocked p failing (room p data w)).begin' (.putting key (data + p.OverheadBytes)))
  | .GetPartial key length readable verified => some (GetPartial w key length readable verified)
  | .advance c => (w.calls c).map (advance p w c)
  | .fails c done => (w.calls c).bind (fails w c done)
  | .passes time => some { w with timeNow := w.timeNow + time }

end Sweeping

/-- Every blob of the directory is tracked, before the first sweep. -/
def initialScan (blobs : List Metadata) (now : Int) : World where
  cacheStorage := blobs
  listCache := blobs.foldl (fun h it => h.Push ⟨it.BlobID,it.Length,it.Timestamp⟩) ⟨[],0⟩
  pendingWriteBytes := 0
  timeNow := now
  calls := fun _ => none
  next := 0

end PersistentCache

end Vbe.Caching
