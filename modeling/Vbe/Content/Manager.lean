import Vbe.Index.Builder

/-! The state of a write manager and the parts of its operations that run under
its lock. A pack is identified by its random blob name, which stands for the
pointer the source compares; open index blobs are the builders they were written
from. What a section takes from outside (the clock, random bytes, the outcome of
each upload) is an `Env`. -/
namespace Vbe.Content
open Vbe.Index

structure MutableParameters where
  version : UInt8
  maxPackSize : Nat
  indexVersion : Nat
deriving DecidableEq

def NoCompression : UInt32 := 0

/-- `compression.HeaderZstdFastest`. -/
def HeaderZstdFastest : UInt32 := 0x1101

structure Compressor where
  compress : Bytes → Option Bytes
  decompress : Bytes → Option Bytes

/-- The hash function, the encryption and the registered compressors. Encryption
takes a random nonce besides the initialization vector. -/
structure Codec where
  hashData : Bytes → Bytes
  encrypt : Bytes → Bytes → Bytes → Bytes
  decrypt : Bytes → Bytes → Option Bytes
  byHeaderID : UInt32 → Option Compressor

structure PendingPackInfo where
  packPrefix : BlobID
  packBlobID : BlobID
  currentPackItems : Builder
  currentPackData : Bytes
  finalized : Bool

structure WriteManager where
  pendingPacks : List PendingPackInfo
  writingPacks : List PendingPackInfo
  failedPacks : List PendingPackInfo
  packIndexBuilder : Builder
  flushing : Bool
  flushPackIndexesAfter : Int
  disableIndexFlushCount : Int
  /-- `committedContents.merged`. -/
  committed : List Builder
  deletionWatermark : Int
  /-- The pack blobs in storage. -/
  blobs : BlobID → Option Bytes

/-- The outcome of uploading a pack, and the padding and recovery data that its
preparation appends. Preparing the recovery data may fail as well. -/
structure Upload where
  stored : Bool
  recovery : Bytes

structure Env where
  now : Int
  random : Bytes
  /-- The bytes a new pack starts with. -/
  preamble : Bytes
  nonce : Bytes
  sessionStarted : Bool
  upload : BlobID → Upload
  indexStored : Bool
  /-- The order in which a loop over the map of pending packs visits them. -/
  order : List BlobID

def flushPackIndexTimeout : Int := 10 * 60
def defaultMinPreambleLength : Nat := 32
def defaultMaxPreambleLength : Nat := 32

def PackBlobIDPrefixRegular : BlobID := [112]
def PackBlobIDPrefixSpecial : BlobID := [113]

def packPrefixForContentID (contentID : ID) : BlobID :=
  if contentID.HasPrefix then PackBlobIDPrefixSpecial else PackBlobIDPrefixRegular

section Lookup

/-- The first of the packs that has an entry for the content. -/
def findInPacks (packs : List PendingPackInfo) (contentID : ID) : Option (PendingPackInfo × Info) :=
  packs.findSome? fun pp => (pp.currentPackItems.get? contentID).map (pp,·)

def shouldIgnore (id : Info) (deletionWatermark : Int) : Bool :=
  if !id.deleted then false else !(id.timestampSeconds > deletionWatermark)

/-- `Merged.GetInfo`. -/
def mergedInfo (merged : List Builder) (id : ID) : Option Info :=
  merged.foldl (fun result ndx =>
    match ndx.get? id with
    | none => result
    | some tmp => some (Builder.winner result tmp)) none

namespace WriteManager

/-- `committedContentIndex.getContent`. -/
def getContent (bm : WriteManager) (contentID : ID) : Option Info :=
  match mergedInfo bm.committed contentID with
  | none => none
  | some info => if shouldIgnore info bm.deletionWatermark then none else some info

def getOverlayContentInfo (bm : WriteManager) (contentID : ID) : Option (Option PendingPackInfo × Info) :=
  match findInPacks bm.pendingPacks contentID with
  | some (pp,ci) => some (some pp,ci)
  | none =>
    match findInPacks bm.writingPacks contentID with
    | some (pp,ci) => some (some pp,ci)
    | none => (bm.packIndexBuilder.get? contentID).map (none,·)

def getContentInfo (bm : WriteManager) (contentID : ID) : Option (Option PendingPackInfo × Info) :=
  match bm.getOverlayContentInfo contentID with
  | some found => some found
  | none => (bm.getContent contentID).map (none,·)

/-- `none` stands for `ErrContentNotFound`. -/
def ContentInfo (bm : WriteManager) (contentID : ID) : Option Info :=
  (bm.getContentInfo contentID).map Prod.snd

/-- `snapshotUncommittedItems`. -/
def snapshotUncommittedItems (bm : WriteManager) : Builder :=
  let overlay := bm.packIndexBuilder
  let overlay := bm.pendingPacks.foldl (fun overlay pp => overlay.addAll pp.currentPackItems.infos) overlay
  bm.writingPacks.foldl (fun overlay pp => overlay.addAll pp.currentPackItems.infos) overlay

/-- The identifiers of `Merged.Iterate`, each with the entry that wins. -/
def listContents (bm : WriteManager) (r : IDRange) : List Info :=
  (((bm.committed.flatMap Builder.infos).map Info.contentID).dedup.filter r.Contains).filterMap bm.getContent

/-- What `IterateContents` hands to its callback. -/
def IterateContents (bm : WriteManager) (includeDeleted : Bool) (r : IDRange) : List Info :=
  let uncommitted := bm.snapshotUncommittedItems
  let invokeCallback (i : Info) : Bool :=
    (includeDeleted || match uncommitted.get? i.contentID with
      | some ci => !ci.deleted
      | none => !i.deleted) && r.Contains i.contentID
  uncommitted.infos.filter invokeCallback ++ (bm.listContents r).filter invokeCallback

end WriteManager

end Lookup

section Packing

/-- The last 16 bytes of the hash. -/
def getPackedContentIV (contentID : ID) : Bytes := contentID.Hash.drop (contentID.Hash.length - 16)

namespace Codec

/-- The compression actually used and the encrypted bytes, `none` for an error. -/
def maybeCompressAndEncryptDataForPacking (codec : Codec) (data : Bytes) (contentID : ID) (comp : UInt32)
    (mp : MutableParameters) (nonce : Bytes) : Option (UInt32 × Bytes) :=
  let iv := getPackedContentIV contentID
  let comp := if contentID.HasPrefix ∧ comp = NoCompression ∧ mp.indexVersion ≥ 2 then HeaderZstdFastest else comp
  if comp ≠ NoCompression then
    if mp.indexVersion < 2 then none
    else
      match codec.byHeaderID comp with
      | none => none
      | some c =>
        match c.compress data with
        | none => none
        | some tmp =>
          if tmp.length ≥ data.length then some (NoCompression,codec.encrypt nonce iv data)
          else some (comp,codec.encrypt nonce iv tmp)
  else some (NoCompression,codec.encrypt nonce iv data)

def decryptContentAndVerify (codec : Codec) (payload : Bytes) (bi : Info) : Option Bytes :=
  let iv := getPackedContentIV bi.contentID
  if bi.encryptionKeyID ≠ 0 then none
  else if bi.compressionHeaderID = 0 then codec.decrypt iv payload
  else
    match codec.decrypt iv payload with
    | none => none
    | some tmp =>
      match codec.byHeaderID bi.compressionHeaderID with
      | none => none
      | some c => c.decompress tmp

end Codec

/-- `pendingPackInfo` bytes or the stored blob, whichever holds the entry. -/
def WriteManager.readPayload (bm : WriteManager) (pp : Option PendingPackInfo) (bi : Info) : Option Bytes :=
  match pp with
  | some pp =>
    if pp.packBlobID = bi.packBlobID then
      Library.Bytes.slice pp.currentPackData bi.packOffset.toNat bi.packedLength.toNat
    else (bm.blobs bi.packBlobID).bind fun data =>
      Library.Bytes.slice data bi.packOffset.toNat bi.packedLength.toNat
  | none => (bm.blobs bi.packBlobID).bind fun data =>
      Library.Bytes.slice data bi.packOffset.toNat bi.packedLength.toNat

def WriteManager.getContentDataAndInfo (codec : Codec) (bm : WriteManager) (contentID : ID) : Option (Bytes × Info) :=
  match bm.getContentInfo contentID with
  | none => none
  | some (pp,bi) =>
    match bm.readPayload pp bi with
    | none => none
    | some payload => (codec.decryptContentAndVerify payload bi).map (·,bi)

def WriteManager.GetContent (codec : Codec) (bm : WriteManager) (contentID : ID) : Option Bytes :=
  (bm.getContentDataAndInfo codec contentID).map Prod.fst

/-- The pack with what is appended to it before an upload, and its index. -/
def preparePackDataContent (recovery : Bytes) (pp : PendingPackInfo) : PendingPackInfo × Builder :=
  let packFileIndex := Builder.empty.addAll pp.currentPackItems.infos
  let haveContent := pp.currentPackItems.infos.any fun info => info.packBlobID = pp.packBlobID
  if packFileIndex.infos = [] then (pp,Builder.empty)
  else if !haveContent then ({pp with currentPackData := []},packFileIndex)
  else if pp.finalized then (pp,packFileIndex)
  else ({pp with finalized := true, currentPackData := pp.currentPackData ++ recovery},packFileIndex)

def removePendingPack (packs : List PendingPackInfo) (pp : PendingPackInfo) : List PendingPackInfo :=
  packs.filter fun p => p.packBlobID ≠ pp.packBlobID

namespace WriteManager

/-- Prepares and uploads a pack; the last component is `none` for an error. -/
def prepareAndWritePack (env : Env) (bm : WriteManager) (pp : PendingPackInfo) :
    WriteManager × PendingPackInfo × Option Builder :=
  let outcome := env.upload pp.packBlobID
  let (pp,packFileIndex) := preparePackDataContent outcome.recovery pp
  if pp.currentPackData.length = 0 then (bm,pp,some packFileIndex)
  else if outcome.stored then
    ({bm with blobs := Function.update bm.blobs pp.packBlobID (some pp.currentPackData)},pp,some packFileIndex)
  else (bm,pp,none)

def processWritePackResult (bm : WriteManager) (pp : PendingPackInfo) (packFileIndex : Option Builder) :
    WriteManager × Bool :=
  let bm := {bm with
    writingPacks := removePendingPack bm.writingPacks pp
    failedPacks := removePendingPack bm.failedPacks pp}
  match packFileIndex with
  | some packFileIndex =>
    ({bm with packIndexBuilder := bm.packIndexBuilder.addAll packFileIndex.infos},true)
  | none => ({bm with failedPacks := bm.failedPacks ++ [pp]},false)

def writePackAndAddToIndex (env : Env) (bm : WriteManager) (pp : PendingPackInfo) : WriteManager × Bool :=
  let (bm,pp,packFileIndex) := bm.prepareAndWritePack env pp
  bm.processWritePackResult pp packFileIndex

/-- The loop that retries packs, ended by the first error. -/
def retryPacks (env : Env) : List PendingPackInfo → WriteManager → WriteManager × Bool
  | [], bm => (bm,true)
  | pp :: rest, bm =>
    match bm.writePackAndAddToIndex env pp with
    | (bm,true) => retryPacks env rest bm
    | (bm,false) => (bm,false)

def retryFailedPacks (env : Env) (bm : WriteManager) : WriteManager × Bool :=
  retryPacks env bm.failedPacks bm

def startWriting (bm : WriteManager) (pp : PendingPackInfo) : WriteManager :=
  {bm with
    pendingPacks := removePendingPack bm.pendingPacks pp
    writingPacks := bm.writingPacks ++ [pp]}

def finishPacks (env : Env) : List PendingPackInfo → WriteManager → WriteManager × Bool
  | [], bm => (bm,true)
  | pp :: rest, bm =>
    match (bm.startWriting pp).writePackAndAddToIndex env pp with
    | (bm,true) => finishPacks env rest bm
    | (bm,false) => (bm,false)

def finishAllPacks (env : Env) (bm : WriteManager) : WriteManager × Bool :=
  finishPacks env (env.order.filterMap fun name => bm.pendingPacks.find? (·.packBlobID = name)) bm

def flushPackIndexes (env : Env) (bm : WriteManager) : WriteManager × Bool :=
  if bm.disableIndexFlushCount > 0 then (bm,true)
  else if bm.packIndexBuilder.infos = [] then
    ({bm with flushPackIndexesAfter := env.now + flushPackIndexTimeout},true)
  else if env.indexStored then
    ({bm with
      committed := bm.committed ++ [bm.packIndexBuilder]
      packIndexBuilder := Builder.empty
      flushPackIndexesAfter := env.now + flushPackIndexTimeout},true)
  else (bm,false)

def newPackBlobID (env : Env) (packPrefix : BlobID) : BlobID := packPrefix ++ env.random

def newPack (env : Env) (packPrefix : BlobID) : PendingPackInfo where
  packPrefix := packPrefix
  packBlobID := newPackBlobID env packPrefix
  currentPackItems := Builder.empty
  currentPackData := env.preamble
  finalized := false

/-- `none` where the marker of a new session cannot be written. -/
def getOrCreatePendingPackInfo (env : Env) (bm : WriteManager) (packPrefix : BlobID) :
    Option (WriteManager × PendingPackInfo) :=
  match bm.pendingPacks.find? (·.packPrefix = packPrefix) with
  | some pp => some (bm,pp)
  | none =>
    if env.sessionStarted then
      let pp := newPack env packPrefix
      some ({bm with pendingPacks := bm.pendingPacks ++ [pp]},pp)
    else none

/-- Changes a pending pack in place. -/
def updatePending (bm : WriteManager) (pp : PendingPackInfo) : WriteManager :=
  {bm with pendingPacks := bm.pendingPacks.map fun p => if p.packBlobID = pp.packBlobID then pp else p}

/-- The later of the clock and the second after the previous time. -/
def contentWriteTime (env : Env) (previousUnixTimeSeconds : Int) : Int :=
  if env.now > previousUnixTimeSeconds then env.now else previousUnixTimeSeconds + 1

def deletedInfo (is : Info) (deletedTime : Int) : Info :=
  {is with deleted := true, timestampSeconds := deletedTime}

def deletePreexistingContent (env : Env) (bm : WriteManager) (ci : Info) : WriteManager × Bool :=
  if ci.deleted then (bm,true)
  else
    match bm.getOrCreatePendingPackInfo env (packPrefixForContentID ci.contentID) with
    | none => (bm,false)
    | some (bm,pp) =>
      (bm.updatePending {pp with
        currentPackItems := pp.currentPackItems.set
          (deletedInfo ci (contentWriteTime env ci.timestampSeconds))},true)

/-- The first of the packs that has a live entry for the content. -/
def findLiveInPacks (packs : List PendingPackInfo) (contentID : ID) : Option (PendingPackInfo × Info) :=
  packs.findSome? fun pp =>
    match pp.currentPackItems.get? contentID with
    | some bi => if !bi.deleted then some (pp,bi) else none
    | none => none

def DeleteContent (env : Env) (bm : WriteManager) (contentID : ID) : WriteManager × Bool :=
  match findLiveInPacks bm.pendingPacks contentID with
  | some (pp,_) =>
    (bm.updatePending {pp with currentPackItems := pp.currentPackItems.erase contentID},true)
  | none =>
    match findLiveInPacks bm.writingPacks contentID with
    | some (_,bi) => bm.deletePreexistingContent env bi
    | none =>
      match bm.packIndexBuilder.get? contentID with
      | some bi => bm.deletePreexistingContent env bi
      | none =>
        match bm.getContent contentID with
        | none => (bm,false)
        | some bi => bm.deletePreexistingContent env bi

/-- The arguments of `addToPackUnlocked`. -/
structure Addition where
  contentID : ID
  data : Bytes
  isDeleted : Bool
  comp : UInt32
  previousWriteTime : Int
  mp : MutableParameters
deriving DecidableEq

/-- The entry of a content whose packed bytes are appended to a pack. -/
def newInfo (env : Env) (pp : PendingPackInfo) (a : Addition) (actualComp : UInt32) (packed : Bytes) : Info where
  deleted := a.isDeleted
  contentID := a.contentID
  packBlobID := pp.packBlobID
  packOffset := UInt32.ofNat pp.currentPackData.length
  timestampSeconds := contentWriteTime env a.previousWriteTime
  formatVersion := a.mp.version
  originalLength := UInt32.ofNat a.data.length
  compressionHeaderID := actualComp
  packedLength := UInt32.ofNat (pp.currentPackData ++ packed).length - UInt32.ofNat pp.currentPackData.length
  encryptionKeyID := 0

def appendContent (pp : PendingPackInfo) (info : Info) (packed : Bytes) : PendingPackInfo :=
  {pp with
    currentPackItems := pp.currentPackItems.set info
    currentPackData := pp.currentPackData ++ packed}

/-- Appends the packed bytes to a pending pack and enters the content; `true` asks
for the pack to be written. -/
def insertContent (env : Env) (bm : WriteManager) (pp : PendingPackInfo) (a : Addition) (actualComp : UInt32)
    (packed : Bytes) : WriteManager × PendingPackInfo × Bool :=
  let pp := appendContent pp (newInfo env pp a actualComp packed) packed
  (bm.updatePending pp,pp,pp.currentPackData.length ≥ a.mp.maxPackSize)

end WriteManager

end Packing

end Vbe.Content
