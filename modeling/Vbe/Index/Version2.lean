import Vbe.Index.Builder
import Vbe.Library.Distinct
import Vbe.Library.Search

/-! Version 2 of the index file: what `buildV2` writes and what `openV2PackIndex`
and the readers of the opened index make of arbitrary bytes. Lengths and offsets
are natural numbers with the reductions of the fixed-width fields written out;
slices of a byte string end at its length. -/
namespace Vbe.Index
open Vbe.Library.Bytes Vbe.Library.Distinct Vbe.Library.Search

def invalidBlobID : BlobID := [45,45,45,105,110,118,97,108,105,100,45,45,45]
def invalidFormatVersion : UInt8 := 0xFF
def invalidCompressionHeaderID : UInt32 := 0xFFFF
def invalidEncryptionKeyID : UInt8 := 0xFF
def unknownKeySize : Nat := 255

def Version2 : UInt8 := 2
def v2IndexHeaderSize : Nat := 17
def v2PackInfoSize : Nat := 5
def v2MaxFormatCount : Nat := 255
def v2MaxUniquePackIDCount : Nat := 2 ^ 24
def v2MaxShortPackIDCount : Nat := 2 ^ 16
def v2MaxContentLength : Nat := 2 ^ 28
def v2MaxShortContentLength : Nat := 2 ^ 24
def v2MaxPackOffset : Nat := 2 ^ 30
def v2DeletedMarker : Nat := 2 ^ 31
def v2MaxEntrySize : Nat := 256
def v2FormatInfoSize : Nat := 6

def v2EntryOffsetPackOffsetAndFlags : Nat := 4
def v2EntryOffsetOriginalLength : Nat := 8
def v2EntryOffsetPackedLength : Nat := 11
def v2EntryOffsetPackBlobID : Nat := 14
def v2EntryMinLength : Nat := 16
def v2EntryOffsetFormatID : Nat := 16
def v2EntryOffsetExtendedPackBlobID : Nat := 17
def v2EntryOffsetHighLengthBits : Nat := 18
def v2EntryMaxLength : Nat := 19

/-- `indexV2FormatInfo`. -/
structure FormatInfo where
  compressionHeaderID : UInt32
  formatVersion : UInt8
  encryptionKeyID : UInt8
deriving DecidableEq

section Build

inductive BuildError
  | tooManyFormats (count : Nat)
  | tooManyPacks (count : Nat)
  | contentLengthTooHigh (packed original : Nat)
  | packOffsetTooHigh (offset : Nat)
  | invalidKeyLength (keyLength : Int) (count : Nat)
  | inconsistentKeyLength (found expected : Nat)
  /-- The panic of `writeIndexValueEntry`. -/
  | encodingBug (buf : Bytes) (entrySize : Nat)
deriving DecidableEq

def indexV2FormatInfoFromInfo (v : Info) : FormatInfo :=
  ⟨v.compressionHeaderID,v.formatVersion,v.encryptionKeyID⟩

/-- A map from elements to consecutive numbers is the list of its keys in the
order of their numbers. -/
def buildUniqueFormatToIndexMap (sortedInfos : List Info) : List FormatInfo :=
  distinct (sortedInfos.map indexV2FormatInfoFromInfo)

def buildPackIDToIndexMap (sortedInfos : List Info) : List BlobID :=
  distinct (sortedInfos.map Info.packBlobID)

def maxOf (field : Info → UInt32) (sortedInfos : List Info) : Nat :=
  sortedInfos.foldl (fun most v => max most (field v).toNat) 0

structure IndexBuilderV2 where
  packBlobIDOffsets : List (BlobID × Nat)
  entryCount : Nat
  keyLength : Int
  entrySize : Nat
  extraDataOffset : Nat
  uniqueFormatInfo2Index : List FormatInfo
  packID2Index : List BlobID
  baseTimestamp : Int

def entrySizeV2 (formats packs maxPackedLen maxOriginalLength : Nat) : Nat :=
  let entrySize := v2EntryOffsetFormatID
  let entrySize := if formats > 1 then max entrySize v2EntryOffsetExtendedPackBlobID else entrySize
  let entrySize := if packs > v2MaxShortPackIDCount then max entrySize v2EntryOffsetHighLengthBits else entrySize
  if maxPackedLen ≥ v2MaxShortContentLength ∨ maxOriginalLength ≥ v2MaxShortContentLength then
    max entrySize v2EntryMaxLength
  else entrySize

def keyLengthV2 : List Info → Int
  | [] => -1
  | first :: _ => (contentIDToBytes first.contentID).length

def newIndexBuilderV2 (sortedInfos : List Info) : Except BuildError IndexBuilderV2 :=
  let uniqueFormat2Index := buildUniqueFormatToIndexMap sortedInfos
  let packID2Index := buildPackIDToIndexMap sortedInfos
  let maxPackedLen := maxOf Info.packedLength sortedInfos
  let maxOriginalLength := maxOf Info.originalLength sortedInfos
  let maxPackOffset := maxOf Info.packOffset sortedInfos
  if uniqueFormat2Index.length > v2MaxFormatCount then
    .error (.tooManyFormats uniqueFormat2Index.length)
  else if packID2Index.length > v2MaxUniquePackIDCount then
    .error (.tooManyPacks packID2Index.length)
  else if maxPackedLen ≥ v2MaxContentLength ∨ maxOriginalLength ≥ v2MaxContentLength then
    .error (.contentLengthTooHigh maxPackedLen maxOriginalLength)
  else if maxPackOffset ≥ v2MaxPackOffset then
    .error (.packOffsetTooHigh maxPackOffset)
  else .ok {
    packBlobIDOffsets := []
    keyLength := keyLengthV2 sortedInfos
    entrySize := entrySizeV2 uniqueFormat2Index.length packID2Index.length maxPackedLen maxOriginalLength
    entryCount := sortedInfos.length
    extraDataOffset := 0
    uniqueFormatInfo2Index := uniqueFormat2Index
    packID2Index := packID2Index
    baseTimestamp := 0 }

/-- One round of the loop that appends each non-empty pack name once. -/
def appendPackName (state : List (BlobID × Nat) × Bytes) (it : Info) : List (BlobID × Nat) × Bytes :=
  if it.packBlobID ≠ [] ∧ state.1.lookup it.packBlobID = none then
    (state.1 ++ [(it.packBlobID,state.2.length % 2 ^ 32)],state.2 ++ it.packBlobID)
  else state

def IndexBuilderV2.prepareExtraData (b : IndexBuilderV2) (sortedInfos : List Info) : IndexBuilderV2 × Bytes :=
  let prepared := sortedInfos.foldl appendPackName (b.packBlobIDOffsets,[])
  let extraDataOffset := (v2IndexHeaderSize
    + ((b.entryCount : Int) * (b.keyLength + b.entrySize)).toNat % 2 ^ 32
    + b.packID2Index.length * v2PackInfoSize % 2 ^ 32
    + b.uniqueFormatInfo2Index.length * v2FormatInfoSize % 2 ^ 32) % 2 ^ 32
  ({b with packBlobIDOffsets := prepared.1, extraDataOffset := extraDataOffset},prepared.2)

/-- The 19 bytes an entry has before the unused ones are cut off. -/
def IndexBuilderV2.valueBuffer (b : IndexBuilderV2) (it : Info) : Bytes :=
  let packOffsetAndFlags := if it.deleted then it.packOffset.toNat ||| v2DeletedMarker else it.packOffset.toNat
  let packBlobIndex := b.packID2Index.idxOf it.packBlobID
  toBigEndian 4 ((it.timestampSeconds - b.baseTimestamp) % 2 ^ 32).toNat
    ++ toBigEndian 4 packOffsetAndFlags
    ++ toBigEndian 3 it.originalLength.toNat
    ++ toBigEndian 3 it.packedLength.toNat
    ++ toBigEndian 2 packBlobIndex
    ++ [UInt8.ofNat (b.uniqueFormatInfo2Index.idxOf (indexV2FormatInfoFromInfo it)),
      UInt8.ofNat (packBlobIndex >>> 16),
      UInt8.ofNat (it.packedLength.toNat >>> 24) ||| UInt8.ofNat ((it.originalLength.toNat >>> 24) <<< 4)]

def IndexBuilderV2.writeIndexValueEntry (b : IndexBuilderV2) (it : Info) : Except BuildError Bytes :=
  let buf := b.valueBuffer it
  if (buf.drop b.entrySize).any (· != 0) then .error (.encodingBug buf b.entrySize)
  else .ok (buf.take b.entrySize)

def IndexBuilderV2.writeIndexEntry (b : IndexBuilderV2) (it : Info) : Except BuildError Bytes :=
  let k := contentIDToBytes it.contentID
  if (k.length : Int) ≠ b.keyLength then .error (.inconsistentKeyLength k.length b.keyLength.toNat)
  else (b.writeIndexValueEntry it).map (k ++ ·)

def IndexBuilderV2.writePackIDEntry (b : IndexBuilderV2) (packID : BlobID) : Bytes :=
  UInt8.ofNat packID.length :: toBigEndian 4 ((b.packBlobIDOffsets.lookup packID).getD 0 + b.extraDataOffset)

def writeFormatInfoEntry (f : FormatInfo) : Bytes :=
  toBigEndian 4 f.compressionHeaderID.toNat ++ [f.formatVersion,f.encryptionKeyID]

def IndexBuilderV2.header (b : IndexBuilderV2) : Bytes :=
  [Version2,UInt8.ofNat b.keyLength.toNat] ++ toBigEndian 2 b.entrySize ++ toBigEndian 4 b.entryCount
    ++ toBigEndian 4 b.packID2Index.length ++ [UInt8.ofNat b.uniqueFormatInfo2Index.length]
    ++ toBigEndian 4 (b.baseTimestamp % 2 ^ 32).toNat

def Builder.buildV2 (b : Builder) : Except BuildError Bytes := do
  let sortedInfos := b.sortedContents
  let b2 ← newIndexBuilderV2 sortedInfos
  let (b2,extraData) := b2.prepareExtraData sortedInfos
  if b2.keyLength ≤ 1 then .error (.invalidKeyLength b2.keyLength b.infos.length)
  else
    let entries ← sortedInfos.mapM b2.writeIndexEntry
    return b2.header ++ entries.flatten ++ (b2.packID2Index.map b2.writePackIDEntry).flatten
      ++ (b2.uniqueFormatInfo2Index.map writeFormatInfoEntry).flatten ++ extraData

end Build

section Open

inductive OpenError
  | invalidHeader
  | entryStrideTooBig
  | unreadableFormats
  | unreadablePackInfo
  | unreadablePackName
deriving DecidableEq

structure V2HeaderInfo where
  version : Nat
  keySize : Nat
  entrySize : Nat
  entryCount : Nat
  packCount : Nat
  formatCount : Nat
  baseTimestamp : Nat
  entriesOffset : Nat
  formatsOffset : Nat
  packsOffset : Nat
  entryStride : Nat

structure IndexV2 where
  hdr : V2HeaderInfo
  data : Bytes
  formats : List FormatInfo
  packBlobIDs : List BlobID

/-- The `width` bytes at `off`, as a big-endian number. -/
def numberAt (data : Bytes) (off width : Nat) : Nat := ofBigEndian ((data.drop off).take width)

def readHeader (header : Bytes) : V2HeaderInfo :=
  let keySize := numberAt header 1 1
  let entrySize := numberAt header 2 2
  let entryCount := numberAt header 4 4
  let packCount := numberAt header 8 4
  let packsOffset := v2IndexHeaderSize + entryCount * (keySize + entrySize)
  { version := numberAt header 0 1
    keySize := keySize
    entrySize := entrySize
    entryCount := entryCount
    packCount := packCount
    formatCount := numberAt header 12 1
    baseTimestamp := numberAt header 13 4
    entryStride := keySize + entrySize
    entriesOffset := v2IndexHeaderSize
    packsOffset := packsOffset
    formatsOffset := packsOffset + packCount * v2PackInfoSize }

def readPackID (data : Bytes) (packsOffset i : Nat) : Except OpenError BlobID :=
  match slice data (packsOffset + v2PackInfoSize * i) v2PackInfoSize with
  | none => .error .unreadablePackInfo
  | some buf =>
    match slice data (numberAt buf 1 4) (numberAt buf 0 1) with
    | none => .error .unreadablePackName
    | some name => .ok name

def parseFormat (formatsBuf : Bytes) (i : Nat) : FormatInfo :=
  let f := formatsBuf.drop (v2FormatInfoSize * i)
  ⟨UInt32.ofNat (numberAt f 0 4),UInt8.ofNat (numberAt f 4 1),UInt8.ofNat (numberAt f 5 1)⟩

def parseFormatsBuffer (formatsBuf : Bytes) (cnt : Nat) : List FormatInfo :=
  (List.range cnt).map (parseFormat formatsBuf)

def openV2PackIndex (data : Bytes) : Except OpenError IndexV2 :=
  match slice data 0 v2IndexHeaderSize with
  | none => .error .invalidHeader
  | some header =>
    let hi := readHeader header
    if hi.keySize ≤ 1 ∨ hi.entrySize < v2EntryMinLength ∨ hi.entrySize > v2EntryMaxLength
        ∨ hi.formatCount > v2MaxFormatCount then .error .invalidHeader
    else if hi.entryStride > v2MaxEntrySize then .error .entryStrideTooBig
    else match slice data hi.formatsOffset (hi.formatCount * v2FormatInfoSize) with
      | none => .error .unreadableFormats
      | some formatsBuf => do
        let packIDs ← (List.range hi.packCount).mapM (readPackID data hi.packsOffset)
        return ⟨hi,data,parseFormatsBuffer formatsBuf hi.formatCount,packIDs⟩

end Open

section Read

inductive ReadError
  | invalidSlice
  | invalidEntryLength (length : Nat)
  | invalidContentID (found expected : Nat)
  /-- A run-time panic. -/
  | panicked
deriving DecidableEq

namespace IndexV2

def getPackBlobIDByIndex (b : IndexV2) (ndx : Nat) : BlobID :=
  if ndx ≥ b.hdr.packCount then invalidBlobID else b.packBlobIDs.getD ndx []

def formatIDIndex (data : Bytes) : Nat :=
  if data.length > v2EntryOffsetFormatID then numberAt data v2EntryOffsetFormatID 1 else 0

/-- The high-order bits of both lengths, zero where the entries do not have
them. -/
def highLengthBits (data : Bytes) : Nat :=
  if data.length > v2EntryOffsetHighLengthBits then numberAt data v2EntryOffsetHighLengthBits 1 else 0

def packIDIndex (data : Bytes) : Nat :=
  if data.length > v2EntryOffsetExtendedPackBlobID then
    numberAt data v2EntryOffsetPackBlobID 2 ||| numberAt data v2EntryOffsetExtendedPackBlobID 1 <<< 16
  else numberAt data v2EntryOffsetPackBlobID 2

def formatByIndex (b : IndexV2) (fid : Nat) : FormatInfo :=
  b.formats.getD fid ⟨invalidCompressionHeaderID,invalidFormatVersion,invalidEncryptionKeyID⟩

def entryToInfoStruct (b : IndexV2) (contentID : ID) (data : Bytes) : Except ReadError Info :=
  if data.length < v2EntryMinLength then .error (.invalidEntryLength data.length)
  else .ok {
    contentID := contentID
    timestampSeconds := numberAt data 0 4 + b.hdr.baseTimestamp
    deleted := numberAt data v2EntryOffsetPackOffsetAndFlags 1 &&& 0x80 ≠ 0
    packOffset := UInt32.ofNat (numberAt data v2EntryOffsetPackOffsetAndFlags 4 &&& (2 ^ 31 - 1))
    originalLength := UInt32.ofNat
      (numberAt data v2EntryOffsetOriginalLength 3 ||| (highLengthBits data >>> 4) <<< 24)
    packedLength := UInt32.ofNat
      (numberAt data v2EntryOffsetPackedLength 3 ||| (highLengthBits data &&& 0xF) <<< 24)
    formatVersion := (b.formatByIndex (formatIDIndex data)).formatVersion
    compressionHeaderID := (b.formatByIndex (formatIDIndex data)).compressionHeaderID
    encryptionKeyID := (b.formatByIndex (formatIDIndex data)).encryptionKeyID
    packBlobID := b.getPackBlobIDByIndex (packIDIndex data) }

def ApproximateCount (b : IndexV2) : Nat := b.hdr.entryCount

def entryOffset (b : IndexV2) (p : Nat) : Nat := b.hdr.entriesOffset + b.hdr.entryStride * p

/-- The key of entry `p`, read for a comparison during a search. -/
def searchKey (b : IndexV2) (p : Nat) : Except ReadError Bytes :=
  match slice b.data (b.entryOffset p) b.hdr.keySize with
  | none => .error .invalidSlice
  | some entryBuf => .ok entryBuf

def keyToContentID (key : Bytes) : Except ReadError ID :=
  match bytesToContentID key with
  | none => .error .panicked
  | some contentID => .ok contentID

def findEntryPosition (b : IndexV2) (start : IDPrefix) : Except ReadError Nat :=
  search b.hdr.entryCount fun p => do
    let contentID ← keyToContentID (← b.searchKey p)
    return contentID.comparePrefix start ≠ .lt

def findEntryPositionExact (b : IndexV2) (idBytes : Bytes) : Except ReadError Nat :=
  search b.hdr.entryCount fun p => do
    return compareBytes (← b.searchKey p) idBytes ≠ .lt

/-- The value bytes of an identifier's entry, `none` where the index lacks it. -/
def findEntry (b : IndexV2) (contentID : ID) : Except ReadError (Option Bytes) :=
  let key := contentIDToBytes contentID
  if b.hdr.keySize = unknownKeySize then .ok none
  else if key.length ≠ b.hdr.keySize then .error (.invalidContentID key.length b.hdr.keySize)
  else
    match b.findEntryPositionExact key with
    | .error e => .error e
    | .ok position =>
      if position ≥ b.hdr.entryCount then .ok none
      else match slice b.data (b.entryOffset position) b.hdr.entryStride with
        | none => .error .invalidSlice
        | some entryBuf =>
          if entryBuf.take key.length = key then .ok (some (entryBuf.drop key.length)) else .ok none

def GetInfo (b : IndexV2) (contentID : ID) : Except ReadError (Option Info) :=
  match b.findEntry contentID with
  | .error e => .error e
  | .ok none => .ok none
  | .ok (some e) => (b.entryToInfoStruct contentID e).map some

/-- The entries handed to a callback that never fails, and the error that ended
the iteration early. -/
def iterateFrom (b : IndexV2) (r : IDRange) : Nat → Nat → List Info × Option ReadError
  | 0, _ => ([],none)
  | count + 1, i =>
    match slice b.data (b.entryOffset i) b.hdr.entryStride with
    | none => ([],some .invalidSlice)
    | some entry =>
      match keyToContentID (entry.take b.hdr.keySize) with
      | .error e => ([],some e)
      | .ok contentID =>
        if contentID.comparePrefix r.endID ≠ .lt then ([],none)
        else match b.entryToInfoStruct contentID (entry.drop b.hdr.keySize) with
          | .error e => ([],some e)
          | .ok info =>
            let rest := b.iterateFrom r count (i + 1)
            (info :: rest.1,rest.2)

def Iterate (b : IndexV2) (r : IDRange) : List Info × Option ReadError :=
  match b.findEntryPosition r.startID with
  | .error e => ([],some e)
  | .ok startPos => b.iterateFrom r (b.hdr.entryCount - startPos) startPos

end IndexV2

end Read

end Vbe.Index
