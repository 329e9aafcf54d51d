import Vbe.Content.Manager
import Vbe.Index.Open
import Vbe.Index.Shards
import Vbe.Library.Checksums
import Vbe.Library.Varints

/-! The index that a pack carries at its end, and how it is found there. Slice expressions
that would panic are an error of their own. -/
namespace Vbe.Content
open Vbe.Index WriteManager Vbe.Library.Bytes Vbe.Library.Varints Vbe.Library.Checksums

section Slices

inductive RecoveryError
  /-- A slice expression out of range. -/
  | panicked
  | invalidOffset
  | getBlob
  | noPostamble
  | notEnoughData
  | invalidLocalIndex
  | decrypt
  | openIndex
deriving DecidableEq

/-- `b[lo:hi]`. -/
def sliced (b : Bytes) (lo hi : Int) : Except RecoveryError Bytes :=
  if 0 ≤ lo ∧ lo ≤ hi ∧ hi ≤ b.length then .ok ((b.drop lo.toNat).take (hi - lo).toNat) else .error .panicked

/-- The slice of a buffer that an offset is in, the slices after it and the offset in it. -/
def findSlice : List Bytes → Int → Option (Bytes × List Bytes × Int)
  | [], _ => none
  | bs :: rest, offset => if offset < bs.length then some (bs,rest,offset) else findSlice rest (offset - bs.length)

/-- The loop over the slices after the first. -/
def appendRest : List Bytes → Int → Except RecoveryError Bytes
  | [], _ => .ok []
  | s :: rest, size =>
    if size > 0 then do
      let l := if size > s.length then (s.length : Int) else size
      let head ← sliced s 0 l
      let tail ← appendRest rest (size - l)
      return head ++ tail
    else .ok []

/-- `gather.Bytes.AppendSectionTo`. -/
def appendSectionTo (slices : List Bytes) (offset size : Int) : Except RecoveryError Bytes :=
  if offset < 0 then .error .invalidOffset
  else
    match findSlice slices offset with
    | none => .ok []
    | some (first,rest,offset) => do
      let firstChunkSize := if offset + size ≤ first.length then size else first.length - offset
      let head ← sliced first offset (offset + firstChunkSize)
      let tail ← appendRest rest (size - firstChunkSize)
      return head ++ tail

end Slices

section Postamble

structure PackContentPostamble where
  localIndexIV : Bytes
  localIndexOffset : UInt32
  localIndexLength : UInt32
deriving DecidableEq

/-- What the checksum is taken of. -/
def PackContentPostamble.payload (p : PackContentPostamble) : Bytes :=
  putUvarint 1 ++ putUvarint (UInt64.ofNat p.localIndexIV.length) ++ p.localIndexIV ++
    putUvarint p.localIndexOffset.toUInt64 ++ putUvarint p.localIndexLength.toUInt64

def PackContentPostamble.toBytes (p : PackContentPostamble) : Option Bytes :=
  let buf := p.payload ++ toBigEndian 4 (ChecksumIEEE p.payload).toNat
  if buf.length > 255 then none else some (buf ++ [UInt8.ofNat buf.length])

def decodePostamble (payload : Bytes) : Except RecoveryError (Option PackContentPostamble) := do
  let (flags,n) := uvarint payload
  if n ≤ 0 then return none
  if flags ≠ 1 then return none
  let payload ← sliced payload n payload.length
  let (ivLength,n) := uvarint payload
  if n ≤ 0 then return none
  let payload ← sliced payload n payload.length
  if ivLength > payload.length then return none
  let iv ← sliced payload 0 ivLength
  let payload ← sliced payload ivLength payload.length
  let (off,n) := uvarint payload
  if n ≤ 0 then return none
  let payload ← sliced payload n payload.length
  let (length,n) := uvarint payload
  if n ≤ 0 then return none
  return some ⟨iv,UInt32.ofNat off,UInt32.ofNat length⟩

def findPostamble (b : Bytes) : Except RecoveryError (Option PackContentPostamble) := do
  match b.getLast? with
  | none => return none
  | some last =>
    let postambleLength : Int := last.toNat
    if postambleLength < 5 then return none
    let postambleStart := b.length - 1 - postambleLength
    let postambleEnd : Int := b.length - 1
    if postambleStart < 0 then return none
    let postambleBytes ← sliced b postambleStart postambleEnd
    let payload ← sliced postambleBytes 0 (postambleBytes.length - 4)
    let checksumBytes ← sliced postambleBytes (postambleBytes.length - 4) postambleBytes.length
    if ofBigEndian checksumBytes ≠ (ChecksumIEEE payload).toNat then return none
    decodePostamble payload

end Postamble

section Writing

/-- What recovery uses of a `SharedManager`: `Encryptor().Overhead()`, the stored packs and
how a write buffer divides what is appended to it. -/
structure SharedManager where
  codec : Codec
  overhead : Nat
  paddingUnit : Nat
  blobs : BlobID → Option Bytes
  slices : Bytes → List Bytes

/-- What is drawn for a pack: the padding, what ends the local index, the nonce. -/
structure Randomness where
  padding : Bytes
  suffix : Option Bytes
  nonce : Bytes

namespace SharedManager

/-- The output after the attempt, and whether it has succeeded. -/
def appendPackFileIndexRecoveryData (sm : SharedManager) (mp : MutableParameters) (random : Randomness)
    (pending : Builder) (output : Bytes) : Bytes × Bool :=
  let localIndexOffset := output.length
  match pending.Build mp.indexVersion random.suffix with
  | .error _ => (output,false)
  | .ok localIndex =>
    let localIndexIV := sm.codec.hashData localIndex
    let encryptedLocalIndex := sm.codec.encrypt random.nonce localIndexIV localIndex
    let postamble : PackContentPostamble :=
      ⟨localIndexIV,UInt32.ofNat localIndexOffset,UInt32.ofNat encryptedLocalIndex.length⟩
    match postamble.toBytes with
    | none => (output ++ encryptedLocalIndex,false)
    | some postambleBytes => (output ++ encryptedLocalIndex ++ postambleBytes,true)

/-- `none` where there are not enough random bytes. -/
def addPadding (sm : SharedManager) (random : Randomness) (data : Bytes) : Option Bytes :=
  if sm.paddingUnit > 0 then
    let missing := sm.paddingUnit - data.length % sm.paddingUnit
    if missing > 0 then
      if random.padding.length < missing then none else some (data ++ random.padding.take missing)
    else some data
  else some data

/-- The pack afterwards, and its index, `none` for an error. A pack counts as finalized
even where its recovery data could not be appended. -/
def preparePackDataContent (sm : SharedManager) (mp : MutableParameters) (random : Randomness) (pp : PendingPackInfo) :
    PendingPackInfo × Option Builder :=
  let packFileIndex := Builder.empty.addAll pp.currentPackItems.infos
  let haveContent := pp.currentPackItems.infos.any fun info => info.packBlobID = pp.packBlobID
  if packFileIndex.infos = [] then (pp,some Builder.empty)
  else if !haveContent then ({pp with currentPackData := []},some packFileIndex)
  else if pp.finalized then (pp,some packFileIndex)
  else
    match sm.addPadding random pp.currentPackData with
    | none => ({pp with finalized := true},none)
    | some data =>
      match sm.appendPackFileIndexRecoveryData mp random packFileIndex data with
      | (data,true) => ({pp with finalized := true, currentPackData := data},some packFileIndex)
      | (data,false) => ({pp with finalized := true, currentPackData := data},none)

end SharedManager

end Writing

section Filling

/-- What is done to a pack while it is pending. -/
inductive PackOp
  /-- `addToPackUnlocked` appends a content. -/
  | add (env : Env) (a : Addition)
  /-- `DeleteContent` takes back what the pack holds. -/
  | remove (contentID : ID)
  /-- `deletePreexistingContent` enters that a content of elsewhere is deleted. -/
  | deletion (env : Env) (ci : Info)

def PackOp.apply (codec : Codec) (pp : PendingPackInfo) : PackOp → Option PendingPackInfo
  | .add env a =>
    match codec.maybeCompressAndEncryptDataForPacking a.data a.contentID a.comp a.mp env.nonce with
    | none => none
    | some (actualComp,packed) => some (appendContent pp (newInfo env pp a actualComp packed) packed)
  | .remove contentID => some {pp with currentPackItems := pp.currentPackItems.erase contentID}
  | .deletion env ci =>
    if ci.deleted then some pp
    else
      let deleted := deletedInfo ci (contentWriteTime env ci.timestampSeconds)
      some {pp with currentPackItems := pp.currentPackItems.set deleted}

end Filling

section Reading

def indexRecoverPostambleSize : Int := 8192

namespace SharedManager

/-- `GetBlob` of a range, or of the whole blob where the length is negative. -/
def getBlob (sm : SharedManager) (packFile : BlobID) (offset length : Int) : Option Bytes :=
  match sm.blobs packFile with
  | none => none
  | some data => if length < 0 then some data else if offset < 0 then none else slice data offset.toNat length.toNat

def attemptReadPackFileLocalIndex (sm : SharedManager) (packFile : BlobID) (offset length : Int) :
    Except RecoveryError Bytes :=
  match sm.getBlob packFile offset length with
  | none => .error .getBlob
  | some payload => do
    match ← findPostamble payload with
    | none => .error .noPostamble
    | some postamble =>
      let localIndexOffset := postamble.localIndexOffset - UInt32.ofInt offset
      if UInt32.ofInt offset > postamble.localIndexOffset then .error .notEnoughData
      else if (localIndexOffset + postamble.localIndexLength).toNat > payload.length then .error .invalidLocalIndex
      else do
        let encryptedLocalIndexBytes ←
          appendSectionTo (sm.slices payload) localIndexOffset.toNat postamble.localIndexLength.toNat
        match sm.codec.decrypt postamble.localIndexIV encryptedLocalIndexBytes with
        | none => .error .decrypt
        | some output => .ok output

def readPackFileLocalIndex (sm : SharedManager) (packFile : BlobID) (packFileLength : Int) : Except RecoveryError Bytes :=
  if packFileLength ≥ indexRecoverPostambleSize then
    match sm.attemptReadPackFileLocalIndex packFile (packFileLength - indexRecoverPostambleSize)
        indexRecoverPostambleSize with
    | .ok output => .ok output
    | .error .panicked => .error .panicked
    | .error _ => sm.attemptReadPackFileLocalIndex packFile 0 (-1)
  else sm.attemptReadPackFileLocalIndex packFile 0 (-1)

/-- The entries that are recovered, the error that ended the iteration over them, and the
index being built, to which they are added where they are committed. -/
def RecoverIndexFromPackBlob (sm : SharedManager) (packFile : BlobID) (packFileLength : Int) (commit : Bool)
    (packIndexBuilder : Builder) : Except RecoveryError (List Info × Option ReadError × Builder) := do
  let localIndexBytes ← sm.readPackFileLocalIndex packFile packFileLength
  match Open sm.overhead localIndexBytes with
  | .error _ => .error .openIndex
  | .ok ndx =>
    let (recovered,err) := (ndx.opened []).Iterate AllIDs
    return (recovered,err,if commit then packIndexBuilder.addAll recovered else packIndexBuilder)

end SharedManager

end Reading

end Vbe.Content
