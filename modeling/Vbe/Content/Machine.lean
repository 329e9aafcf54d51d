import Vbe.Content.Manager
import Vbe.Library.Runs

/-! The write manager used by several threads. A thread is a call and the place
where it stands; one step of it runs to the next point at which the source lets go
of the lock, is about to take it or has uploaded a pack. Uploads made under the
lock are part of their section, since nobody can observe the manager meanwhile. -/
namespace Vbe.Content
open Vbe.Index Vbe.Library.Runs

inductive Call
  | WriteContent (data : Bytes) (idPrefix : IDPrefix) (comp : UInt32) (mp : MutableParameters)
  | DeleteContent (contentID : ID)
  | RewriteContent (contentID : ID) (mp : MutableParameters)
  | UndeleteContent (contentID : ID) (mp : MutableParameters)
  | Flush
deriving DecidableEq

open WriteManager (Addition)

/-- Where a thread stands: before the section, upload or wait that is named. -/
inductive Place
  | retryFailed
  | lookup (contentID : ID)
  | readContent
  | checkFlush (a : Addition)
  /-- `Flush`, on behalf of an addition or called directly. -/
  | flush (next : Option Addition)
  | flushWait (next : Option Addition)
  | publish (a : Addition)
  | publishWait (a : Addition)
  | upload (contentID : ID) (packBlobID : BlobID)
  | processResult (contentID : ID) (packBlobID : BlobID) (stored : Bool)
  | delete
  | returned (ok : Bool)
deriving DecidableEq

structure Thread where
  call : Call
  place : Place
deriving DecidableEq

def Call.start : Call → Thread
  | .WriteContent data idPrefix comp mp => ⟨.WriteContent data idPrefix comp mp,.retryFailed⟩
  | .DeleteContent contentID => ⟨.DeleteContent contentID,.delete⟩
  | .RewriteContent contentID mp => ⟨.RewriteContent contentID mp,.readContent⟩
  | .UndeleteContent contentID mp => ⟨.UndeleteContent contentID mp,.readContent⟩
  | .Flush => ⟨.Flush,.flush none⟩

/-- The identifier that a `WriteContent` returns. -/
def Call.writes (codec : Codec) : Call → Option ID
  | .WriteContent data idPrefix _ _ => (IDFromHash idPrefix (codec.hashData data)).toOption
  | _ => none

section Sections
variable (codec : Codec) (env : Env)

/-- The part of `Flush` after its wait. -/
def flushFinish (bm : WriteManager) (next : Option Addition) : WriteManager × Place :=
  match bm.finishAllPacks env with
  | (bm,false) => ({bm with flushing := false},.returned false)
  | (bm,true) =>
    match bm.flushPackIndexes env with
    | (bm,false) => ({bm with flushing := false},.returned false)
    | (bm,true) =>
      ({bm with flushing := false},
        match next with
        | none => .returned true
        | some a => .publish a)

def flushBegin (bm : WriteManager) (next : Option Addition) : WriteManager × Place :=
  match {bm with flushing := true}.retryFailedPacks env with
  | (bm,false) => ({bm with flushing := false},.returned false)
  | (bm,true) => if bm.writingPacks = [] then flushFinish env bm next else (bm,.flushWait next)

/-- The part of `addToPackUnlocked` that runs under the lock after its wait. -/
def publishLocked (bm : WriteManager) (a : Addition) (actualComp : UInt32) (packed : Bytes) : WriteManager × Place :=
  match bm.retryFailedPacks env with
  | (bm,false) => (bm,.returned false)
  | (bm,true) =>
    match bm.getOrCreatePendingPackInfo env (packPrefixForContentID a.contentID) with
    | none => (bm,.returned false)
    | some (bm,pp) =>
      match bm.insertContent env pp a actualComp packed with
      | (bm,pp,true) => (bm.startWriting pp,.upload a.contentID pp.packBlobID)
      | (bm,_,false) => (bm,.returned true)

/-- Whether `WriteContent` has lost the race to another writer. -/
def lostRace (bm : WriteManager) (a : Addition) : Bool :=
  a.previousWriteTime < 0 && (bm.getContentInfo a.contentID).isSome

def readContent (bm : WriteManager) (contentID : ID) (onlyRewriteDeleted : Bool) (mp : MutableParameters) : Place :=
  match bm.getContentDataAndInfo codec contentID with
  | none => .returned false
  | some (data,bi) =>
    if onlyRewriteDeleted then
      if !bi.deleted then .returned true
      else .checkFlush ⟨contentID,data,false,bi.compressionHeaderID,bi.timestampSeconds,mp⟩
    else .checkFlush ⟨contentID,data,bi.deleted,bi.compressionHeaderID,bi.timestampSeconds,mp⟩

/-- `WriteContent` after it has looked its content up. -/
def writeAfterLookup (bm : WriteManager) (contentID : ID) (data : Bytes) (comp : UInt32)
    (mp : MutableParameters) : Place :=
  match bm.ContentInfo contentID with
  | some bi =>
    if !bi.deleted then .returned true
    else .checkFlush ⟨contentID,data,false,comp,bi.timestampSeconds,mp⟩
  | none => .checkFlush ⟨contentID,data,false,comp,-1,mp⟩

/-- `none` where the thread waits, has returned or never stands. -/
def Thread.run (t : Thread) (bm : WriteManager) : Option (WriteManager × Place) :=
  match t.place with
  | .retryFailed =>
    match t.call with
    | .WriteContent data idPrefix _ _ =>
      if bm.flushing then none
      else
        match bm.retryFailedPacks env with
        | (bm,false) => some (bm,.returned false)
        | (bm,true) =>
          match IDFromHash idPrefix (codec.hashData data) with
          | .error _ => some (bm,.returned false)
          | .ok contentID => some (bm,.lookup contentID)
    | _ => none
  | .lookup contentID =>
    match t.call with
    | .WriteContent data _ comp mp => some (bm,writeAfterLookup bm contentID data comp mp)
    | _ => none
  | .readContent =>
    match t.call with
    | .RewriteContent contentID mp => some (bm,readContent codec bm contentID false mp)
    | .UndeleteContent contentID mp => some (bm,readContent codec bm contentID true mp)
    | _ => none
  | .checkFlush a => some (bm,if env.now > bm.flushPackIndexesAfter then .flush (some a) else .publish a)
  | .flush next => some (flushBegin env bm next)
  | .flushWait next => if bm.writingPacks = [] then some (flushFinish env bm next) else none
  | .publish a =>
    match codec.maybeCompressAndEncryptDataForPacking a.data a.contentID a.comp a.mp env.nonce with
    | none => some (bm,.returned false)
    | some (actualComp,packed) =>
      if lostRace bm a then some (bm,.returned true)
      else if bm.flushing then some (bm,.publishWait a)
      else some (publishLocked env bm a actualComp packed)
  | .publishWait a =>
    if bm.flushing then none
    else
      match codec.maybeCompressAndEncryptDataForPacking a.data a.contentID a.comp a.mp env.nonce with
      | none => none
      | some (actualComp,packed) => some (publishLocked env bm a actualComp packed)
  | .upload contentID packBlobID =>
    match bm.writingPacks.find? (·.packBlobID = packBlobID) with
    | none => none
    | some pp =>
      match bm.prepareAndWritePack env pp with
      | (bm,pp,packFileIndex) =>
        some ({bm with writingPacks := bm.writingPacks.map fun p => if p.packBlobID = pp.packBlobID then pp else p},
          .processResult contentID packBlobID packFileIndex.isSome)
  | .processResult _ packBlobID stored =>
    match bm.writingPacks.find? (·.packBlobID = packBlobID) with
    | none => none
    | some pp =>
      -- the items of a pack in `writingPacks` no longer change, so its index is the one it was uploaded with
      match bm.processWritePackResult pp
        (if stored = true then some (Builder.empty.addAll pp.currentPackItems.infos) else none) with
      | (bm,ok) => some (bm,.returned ok)
  | .delete =>
    match t.call with
    | .DeleteContent contentID =>
      match bm.DeleteContent env contentID with
      | (bm,ok) => some (bm,.returned ok)
    | _ => none
  | .returned _ => none

/-- What a step draws from outside is possible: new pack names are unused, packs
start with a preamble, and a map is visited in some order. -/
def Env.Possible (bm : WriteManager) : Prop :=
  (∀ packPrefix ∈ [PackBlobIDPrefixRegular,PackBlobIDPrefixSpecial],
    bm.blobs (WriteManager.newPackBlobID env packPrefix) = none ∧
    ∀ pp ∈ bm.pendingPacks ++ bm.writingPacks ++ bm.failedPacks,
      pp.packBlobID ≠ WriteManager.newPackBlobID env packPrefix) ∧
  (defaultMinPreambleLength ≤ env.preamble.length ∧ env.preamble.length ≤ defaultMaxPreambleLength) ∧
  env.order.Perm (bm.pendingPacks.map PendingPackInfo.packBlobID)

instance (bm : WriteManager) : Decidable (env.Possible bm) :=
  inferInstanceAs (Decidable (_ ∧ _ ∧ _))

end Sections

/-- The manager, its threads, and as ghost state the contents whose `WriteContent`
has returned success and that no `DeleteContent` has been run for since. -/
structure Machine where
  bm : WriteManager
  threads : List Thread
  acknowledged : List ID

/-- What an index refresh loads: the index blobs, the deletion watermark, and the
pack blobs that other clients have added. -/
structure Refreshed where
  committed : List Builder
  deletionWatermark : Int
  packs : List (BlobID × Bytes)

inductive Label
  | begin (call : Call)
  | run (i : Nat) (env : Env)
  | refresh (loaded : Refreshed)

def acknowledge (codec : Codec) (t : Thread) (place : Place) (acknowledged : List ID) : List ID :=
  match t.call, place with
  | .DeleteContent contentID, _ => acknowledged.filter (· ≠ contentID)
  | call, .returned true => (call.writes codec).toList ++ acknowledged
  | _, _ => acknowledged

namespace WriteManager

/-- Later blobs of one name hide earlier ones; blobs already known stay. -/
def addBlobs (blobs : BlobID → Option Bytes) (packs : List (BlobID × Bytes)) : BlobID → Option Bytes :=
  fun name => (blobs name).or (packs.lookup name)

def refresh (bm : WriteManager) (loaded : Refreshed) : WriteManager :=
  {bm with
    committed := loaded.committed
    deletionWatermark := loaded.deletionWatermark
    blobs := addBlobs bm.blobs loaded.packs}

end WriteManager

def Machine.step (codec : Codec) (s : Machine) : Label → Option Machine
  | .begin call => some {s with threads := s.threads ++ [call.start]}
  | .run i env =>
    match s.threads[i]? with
    | none => none
    | some t =>
      if env.Possible s.bm then
        match t.run codec env s.bm with
        | none => none
        | some (bm,place) => some {
          bm := bm
          threads := s.threads.set i {t with place := place}
          acknowledged := acknowledge codec t place s.acknowledged }
      else none
  | .refresh loaded => some {s with bm := s.bm.refresh loaded}

/-- `NewWriteManager` over a committed index. -/
def NewWriteManager (now : Int) (committed : List Builder) (deletionWatermark : Int)
    (blobs : BlobID → Option Bytes) : WriteManager where
  pendingPacks := []
  writingPacks := []
  failedPacks := []
  packIndexBuilder := Builder.empty
  flushing := false
  flushPackIndexesAfter := now + flushPackIndexTimeout
  disableIndexFlushCount := 0
  committed := committed
  deletionWatermark := deletionWatermark
  blobs := blobs

def Machine.initial (bm : WriteManager) : Machine := ⟨bm,[],[]⟩

/-- Calls are made one after another. -/
def Sequential (s : Machine) : Label → Prop
  | .begin _ => ∀ t ∈ s.threads, ∃ ok, t.place = .returned ok
  | _ => True

instance (s : Machine) : ∀ l, Decidable (Sequential s l)
  | .begin _ => inferInstanceAs (Decidable (∀ t ∈ s.threads, ∃ ok, t.place = .returned ok))
  | .run _ _ => .isTrue trivial
  | .refresh _ => .isTrue trivial

/-- Nothing that is written to storage is refused. -/
def Env.NoFailure (env : Env) : Prop :=
  (∀ name, (env.upload name).stored = true) ∧ env.indexStored = true ∧ env.sessionStarted = true

section Concrete

/-- Stores contents as they are under their own bytes, for runs on fixed inputs. -/
def plainCodec : Codec where
  hashData data := data
  encrypt _ _ data := data
  decrypt _ payload := some payload
  byHeaderID _ := none

/-- A quiet environment at a time; the pending packs have the given names. -/
def clock (now : Int) (order : List BlobID) : Env where
  now := now
  random := [UInt8.ofNat now.toNat]
  preamble := List.replicate defaultMinPreambleLength 0
  nonce := []
  sessionStarted := true
  upload _ := ⟨true,[]⟩
  indexStored := true
  order := order

theorem clock_noFailure (now : Int) (order : List BlobID) : (clock now order).NoFailure := ⟨fun _ => rfl,rfl,rfl⟩

/-- The same environment with every pack refused. -/
def refusing (now : Int) (order : List BlobID) : Env := {clock now order with upload := fun _ => ⟨false,[]⟩}

/-- Packs are only written by flushes. -/
def roomy : MutableParameters := ⟨2,1000,2⟩

/-- Every content fills its pack. -/
def tight : MutableParameters := ⟨2,1,2⟩

/-- A content of an earlier session. -/
def committedContent : Builder := Builder.empty.set ⟨[112,0],5,1,1,0,0,⟨0,[1]⟩,false,2,0⟩

end Concrete

end Vbe.Content
