import Vbe.Index.Table
import Vbe.Index.Version2Entry

/-! Version 1 of the index file: what `buildV1` writes, and what the readers of an opened
index make of arbitrary bytes. An opened index remembers the pack names it has read by
their offsets, so its readers pass on what they remember. -/
namespace Vbe.Index
open Vbe.Library.Bytes

def Version1 : UInt8 := 1
def v1HeaderSize : Nat := 8
def v1DeletedMarker : Nat := 2 ^ 31
def v1EntryLength : Nat := 20

section Build

inductive BuildErrorV1
  | inconsistentKeyLength (found : Nat) (expected : Int)
  | compressionNotSupported
  | encryptionKeyNotSupported
  | emptyPackBlobID (contentID : ID)
deriving DecidableEq

structure IndexBuilderV1 where
  packBlobIDOffsets : List (BlobID × Nat)
  entryCount : Nat
  keyLength : Int
  entryLength : Nat
  extraDataOffset : Nat

/-- The builder and the extra data. -/
def IndexBuilderV1.prepareExtraData (b : IndexBuilderV1) (allContents : List Info) : IndexBuilderV1 × Bytes :=
  let prepared := allContents.foldl appendPackName (b.packBlobIDOffsets,[])
  let keyLength := match allContents with
    | [] => b.keyLength
    | it :: _ => ((contentIDToBytes it.contentID).length : Int)
  ({b with
    packBlobIDOffsets := prepared.1
    keyLength := keyLength
    extraDataOffset := ((v1HeaderSize + b.entryCount * (keyLength + b.entryLength)) % 2 ^ 32).toNat},prepared.2)

def timestampAndFlags (it : Info) : Nat :=
  (it.timestampSeconds % 2 ^ 48).toNat <<< 16 ||| it.formatVersion.toNat <<< 8 ||| it.packBlobID.length % 2 ^ 64

def IndexBuilderV1.formatEntry (b : IndexBuilderV1) (it : Info) : Except BuildErrorV1 Bytes :=
  if it.packBlobID.length = 0 then .error (.emptyPackBlobID it.contentID)
  else .ok (toBigEndian 8 (timestampAndFlags it)
    ++ toBigEndian 4 (b.extraDataOffset + (b.packBlobIDOffsets.lookup it.packBlobID).getD 0)
    ++ toBigEndian 4 (if it.deleted then it.packOffset.toNat ||| v1DeletedMarker else it.packOffset.toNat)
    ++ toBigEndian 4 it.packedLength.toNat)

def IndexBuilderV1.writeEntry (b : IndexBuilderV1) (it : Info) : Except BuildErrorV1 Bytes :=
  let k := contentIDToBytes it.contentID
  if (k.length : Int) ≠ b.keyLength then .error (.inconsistentKeyLength k.length b.keyLength)
  else if it.compressionHeaderID ≠ 0 then .error .compressionNotSupported
  else if it.encryptionKeyID ≠ 0 then .error .encryptionKeyNotSupported
  else (b.formatEntry it).map (k ++ ·)

/-- `byte(keyLength)` makes 255 of the -1 of an empty index. -/
def IndexBuilderV1.header (b : IndexBuilderV1) : Bytes :=
  [Version1,UInt8.ofNat (b.keyLength % 256).toNat] ++ toBigEndian 2 b.entryLength ++ toBigEndian 4 b.entryCount

def newIndexBuilderV1 (allContents : List Info) : IndexBuilderV1 where
  packBlobIDOffsets := []
  keyLength := -1
  entryLength := v1EntryLength
  entryCount := allContents.length
  extraDataOffset := 0

def Builder.buildV1 (b : Builder) : Except BuildErrorV1 Bytes := do
  let allContents := b.sortedContents
  let (b1,extraData) := (newIndexBuilderV1 allContents).prepareExtraData allContents
  let entries ← allContents.mapM b1.writeEntry
  return b1.header ++ entries.flatten ++ extraData

end Build

section Open

structure V1HeaderInfo where
  version : Nat
  keySize : Nat
  valueSize : Nat
  entryCount : Nat

structure IndexV1 where
  hdr : V1HeaderInfo
  data : Bytes
  v1PerContentOverhead : UInt32

/-- The pack names that have been read, by their offsets. -/
abbrev NameMap := List (Nat × BlobID)

def v1ReadHeader (data : Bytes) : Except OpenError V1HeaderInfo :=
  match slice data 0 v1HeaderSize with
  | none => .error .invalidHeader
  | some header =>
    let hi : V1HeaderInfo := {
      version := numberAt header 0 1
      keySize := numberAt header 1 1
      valueSize := numberAt header 2 2
      entryCount := numberAt header 4 4 }
    if hi.keySize ≤ 1 then .error .invalidHeader else .ok hi

end Open

section Read

namespace IndexV1

def packBlobIDForOffset (b : IndexV1) (names : NameMap) (nameOffset nameLength : Nat) : BlobID × NameMap :=
  match names.lookup nameOffset with
  | some packBlobID => (packBlobID,names)
  | none =>
    match slice b.data nameOffset nameLength with
    | none => (invalidBlobID,names)
    | some nameBuf => (nameBuf,(nameOffset,nameBuf) :: names)

def entryToInfoStruct (b : IndexV1) (names : NameMap) (contentID : ID) (data : Bytes) :
    Except ReadError Info × NameMap :=
  if data.length ≠ v1EntryLength then (.error (.invalidEntryLength data.length),names)
  else
    let (packBlobID,names) := b.packBlobIDForOffset names (numberAt data 8 4) (numberAt data 7 1)
    (.ok {
      contentID := contentID
      timestampSeconds := numberAt data 0 6
      formatVersion := UInt8.ofNat (numberAt data 6 1)
      packBlobID := packBlobID
      deleted := numberAt data 12 1 &&& 0x80 ≠ 0
      packOffset := UInt32.ofNat (numberAt data 12 4 &&& (2 ^ 31 - 1))
      packedLength := UInt32.ofNat (numberAt data 16 4)
      originalLength := UInt32.ofNat (numberAt data 16 4) - b.v1PerContentOverhead
      compressionHeaderID := 0
      encryptionKeyID := 0 },names)

def ApproximateCount (b : IndexV1) : Nat := b.hdr.entryCount

/-- The entries of the file, as they decode while no name has been read. -/
def table (b : IndexV1) : Table where
  data := b.data
  entriesOffset := v1HeaderSize
  stride := b.hdr.keySize + b.hdr.valueSize
  keySize := b.hdr.keySize
  entryCount := b.hdr.entryCount
  decode contentID data := (b.entryToInfoStruct [] contentID data).1

theorem table_decode (b : IndexV1) (contentID : ID) (data : Bytes) :
    b.table.decode contentID data = (b.entryToInfoStruct [] contentID data).1 := rfl

def findEntryPosition (b : IndexV1) (contentID : IDPrefix) : Except ReadError Nat := b.table.findEntryPosition contentID

def findEntryPositionExact (b : IndexV1) (idBytes : Bytes) : Except ReadError Nat := b.table.findEntryPositionExact idBytes

def findEntry (b : IndexV1) (contentID : ID) : Except ReadError (Option Bytes) := b.table.findEntry contentID

/-- The length of an entry is checked here and once more where it is decoded. -/
def GetInfo (b : IndexV1) (names : NameMap) (contentID : ID) : Except ReadError (Option Info) × NameMap :=
  match b.findEntry contentID with
  | .error e => (.error e,names)
  | .ok none => (.ok none,names)
  | .ok (some e) =>
    if e.length ≠ v1EntryLength then (.error (.invalidEntryLength e.length),names)
    else
      let (decoded,names) := b.entryToInfoStruct names contentID e
      (decoded.map some,names)

def iterateFrom (b : IndexV1) (r : IDRange) : Nat → Nat → NameMap → (List Info × Option ReadError) × NameMap
  | 0, _, names => (([],none),names)
  | count + 1, i, names =>
    match slice b.data (b.table.entryOffset i) (b.hdr.keySize + b.hdr.valueSize) with
    | none => (([],some .invalidSlice),names)
    | some entry =>
      match IndexV2.keyToContentID (entry.take b.hdr.keySize) with
      | .error e => (([],some e),names)
      | .ok contentID =>
        if contentID.comparePrefix r.endID ≠ .lt then (([],none),names)
        else match b.entryToInfoStruct names contentID (entry.drop b.hdr.keySize) with
          | (.error e,names) => (([],some e),names)
          | (.ok info,names) =>
            let rest := b.iterateFrom r count (i + 1) names
            ((info :: rest.1.1,rest.1.2),rest.2)

/-- What a callback that never fails is called with, and the error that ended the
iteration early. -/
def Iterate (b : IndexV1) (names : NameMap) (r : IDRange) : (List Info × Option ReadError) × NameMap :=
  match b.findEntryPosition r.startID with
  | .error e => (([],some e),names)
  | .ok startPos => b.iterateFrom r (b.hdr.entryCount - startPos) startPos names

/-- What an index remembers after any lookups and iterations, finished or broken off. -/
inductive Remembers (b : IndexV1) : NameMap → Prop
  | opened : Remembers b []
  | looked (names : NameMap) (contentID : ID) : Remembers b names → Remembers b (b.GetInfo names contentID).2
  | iterated (names : NameMap) (r : IDRange) (count i : Nat) : Remembers b names → i + count ≤ b.hdr.entryCount →
      Remembers b (b.iterateFrom r count i names).2

/-- No entry of the file decodes differently while names are remembered that are `Good`,
and decoding it keeps them so. -/
def Settled (b : IndexV1) (Good : NameMap → Prop) : Prop :=
  ∀ names, Good names → ∀ p < b.hdr.entryCount, ∀ entry,
    slice b.data (b.table.entryOffset p) (b.hdr.keySize + b.hdr.valueSize) = some entry →
      ∀ id, ∃ names', b.entryToInfoStruct names id (entry.drop b.hdr.keySize) =
        (b.table.decode id (entry.drop b.hdr.keySize),names') ∧ Good names'

variable {b : IndexV1} {Good : NameMap → Prop} {names : NameMap}

theorem Settled.GetInfo (settled : b.Settled Good) (good : Good names) (id : ID) :
    ∃ names', b.GetInfo names id = (b.table.GetInfo id,names') ∧ Good names' := by
  unfold IndexV1.GetInfo IndexV1.findEntry Table.GetInfo
  cases found : b.table.findEntry id with
  | error e => exact ⟨names,rfl,good⟩
  | ok value =>
    cases value with
    | none => exact ⟨names,rfl,good⟩
    | some value =>
      have entry : ∃ p < b.hdr.entryCount, ∃ entry, slice b.data (b.table.entryOffset p)
          (b.hdr.keySize + b.hdr.valueSize) = some entry ∧ value = entry.drop b.hdr.keySize := by
        unfold Table.findEntry at found
        dsimp only at found
        split at found
        next => simp at found
        next =>
          split at found
          next => simp at found
          next fits =>
            rw [not_not] at fits
            split at found
            next => simp at found
            next position _ =>
              split at found
              next => simp at found
              next inside =>
                split at found
                next => simp at found
                next entry read =>
                  split at found
                  next =>
                    rw [fits] at found
                    exact ⟨position,not_le.mp inside,entry,read,(Option.some.inj (Except.ok.inj found)).symm⟩
                  next => simp at found
      obtain ⟨p,inside,entry,read,rfl⟩ := entry
      obtain ⟨names',decoded,kept⟩ := settled names good p inside entry read id
      dsimp only
      rw [decoded]
      split
      next wrong =>
        refine ⟨names,?_,good⟩
        rw [table_decode,entryToInfoStruct,if_pos wrong]
        rfl
      next => exact ⟨names',rfl,kept⟩

theorem Settled.iterateFrom (settled : b.Settled Good) (good : Good names) (r : IDRange) (count i : Nat)
    (inside : i + count ≤ b.hdr.entryCount) :
    ∃ names', b.iterateFrom r count i names = (b.table.iterateFrom r count i,names') ∧ Good names' := by
  induction count generalizing i names with
  | zero => exact ⟨names,rfl,good⟩
  | succ count ih =>
    unfold IndexV1.iterateFrom Table.iterateFrom
    cases read : slice b.data (b.table.entryOffset i) (b.hdr.keySize + b.hdr.valueSize) with
    | none =>
      have read' : slice b.table.data (b.table.entryOffset i) b.table.stride = none := read
      rw [read']
      exact ⟨names,rfl,good⟩
    | some entry =>
      have read' : slice b.table.data (b.table.entryOffset i) b.table.stride = some entry := read
      rw [read']
      dsimp only
      cases key : IndexV2.keyToContentID (entry.take b.hdr.keySize) with
      | error e =>
        have key' : IndexV2.keyToContentID (entry.take b.table.keySize) = .error e := key
        rw [key']
        exact ⟨names,rfl,good⟩
      | ok contentID =>
        have key' : IndexV2.keyToContentID (entry.take b.table.keySize) = .ok contentID := key
        rw [key']
        dsimp only
        split
        next => exact ⟨names,rfl,good⟩
        next =>
          obtain ⟨names',decoded,kept⟩ := settled names good i (by omega) entry read contentID
          have drop : entry.drop b.table.keySize = entry.drop b.hdr.keySize := rfl
          rw [decoded,drop]
          cases b.table.decode contentID (entry.drop b.hdr.keySize) with
          | error e => exact ⟨names',rfl,kept⟩
          | ok info =>
            obtain ⟨names'',rest,kept'⟩ := ih kept (i + 1) (by omega)
            dsimp only
            rw [rest]
            exact ⟨names'',rfl,kept'⟩

theorem Settled.Iterate (settled : b.Settled Good) (good : Good names) (r : IDRange) :
    (b.Iterate names r).1 = b.table.Iterate r := by
  unfold IndexV1.Iterate IndexV1.findEntryPosition Table.Iterate
  cases b.table.findEntryPosition r.startID with
  | error e => rfl
  | ok startPos =>
    by_cases inside : startPos ≤ b.hdr.entryCount
    · obtain ⟨names',iterated,_⟩ := settled.iterateFrom good r (b.hdr.entryCount - startPos) startPos (by omega)
      exact congrArg Prod.fst iterated
    · have none : b.hdr.entryCount - startPos = 0 := by omega
      have none' : b.table.entryCount - startPos = 0 := none
      dsimp only
      rw [none,none']
      rfl

theorem Settled.remembers (settled : b.Settled Good) (fresh : Good []) (remembers : b.Remembers names) : Good names := by
  induction remembers with
  | opened => exact fresh
  | looked names id _ good =>
    obtain ⟨names',looked,kept⟩ := settled.GetInfo good id
    rw [looked]
    exact kept
  | iterated names r count i _ inside good =>
    obtain ⟨names',iterated,kept⟩ := settled.iterateFrom good r count i inside
    rw [iterated]
    exact kept

end IndexV1

end Read

end Vbe.Index
