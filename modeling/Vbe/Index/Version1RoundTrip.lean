import Vbe.Index.Open
import Vbe.Index.Version2RoundTrip

/-! Reading back what `buildV1` wrote, whatever pack names the readers of the opened index
remember. An entry keeps no original length, so that the readers make one of the packed
length. -/
namespace Vbe.Index
open Vbe.Library.Bytes Vbe.Library.Results Vbe.Library.Search

section Names

/-- Different pack names are at different places of extra data smaller than 2^32 bytes. -/
structure NamesApart (offsets : List (BlobID × Nat)) (extraData : Bytes) : Prop where
  inside : ∀ name off, offsets.lookup name = some off → extraData.length < 2 ^ 32 → off < extraData.length
  apart : ∀ name name' off, offsets.lookup name = some off → offsets.lookup name' = some off →
    extraData.length < 2 ^ 32 → name = name'

theorem appendPackName_apart {state : List (BlobID × Nat) × Bytes} (names : NamesApart state.1 state.2) (it : Info) :
    NamesApart (appendPackName state it).1 (appendPackName state it).2 := by
  unfold appendPackName
  split
  next fresh =>
    have positive : 0 < it.packBlobID.length := List.length_pos_of_ne_nil fresh.1
    have found {name : BlobID} {off : Nat}
        (there : (state.1 ++ [(it.packBlobID,state.2.length % 2 ^ 32)]).lookup name = some off) :
        state.1.lookup name = some off ∨ name = it.packBlobID ∧ off = state.2.length % 2 ^ 32 := by
      rw [List.lookup_append,Option.or_eq_some_iff] at there
      rcases there with old | ⟨_,new⟩
      · exact Or.inl old
      · simp only [List.lookup_cons,List.lookup_nil] at new
        split at new
        next same => exact Or.inr ⟨by simpa using same,(Option.some.inj new).symm⟩
        next => contradiction
    refine ⟨fun name off there small => ?_,fun name name' off first second small => ?_⟩
    · rw [List.length_append] at small ⊢
      rcases found there with old | ⟨_,rfl⟩
      · have := names.inside name off old (by omega)
        omega
      · rw [Nat.mod_eq_of_lt (by omega)]
        omega
    · rw [List.length_append] at small
      rcases found first with old | ⟨rfl,new⟩ <;> rcases found second with old' | ⟨rfl,new'⟩
      · exact names.apart name name' off old old' (by omega)
      · have := names.inside name off old (by omega)
        rw [Nat.mod_eq_of_lt (by omega)] at new'
        omega
      · have := names.inside name' off old' (by omega)
        rw [Nat.mod_eq_of_lt (by omega)] at new
        omega
      · rfl
  next => exact names

theorem foldl_appendPackName_apart (l : List Info) : ∀ state : List (BlobID × Nat) × Bytes,
    NamesApart state.1 state.2 → NamesApart (l.foldl appendPackName state).1 (l.foldl appendPackName state).2 := by
  induction l with
  | nil => exact fun state names => names
  | cons it l ih => exact fun state names => ih _ (appendPackName_apart names it)

end Names

section File

def preparedBuilderV1 (l : List Info) : IndexBuilderV1 := ((newIndexBuilderV1 l).prepareExtraData l).1

def extraDataV1 (l : List Info) : Bytes := ((newIndexBuilderV1 l).prepareExtraData l).2

/-- Where the file holds the pack name of an entry. -/
def nameOffset (l : List Info) (it : Info) : Nat :=
  (preparedBuilderV1 l).extraDataOffset + ((preparedBuilderV1 l).packBlobIDOffsets.lookup it.packBlobID).getD 0

def entryValue (l : List Info) (it : Info) : Bytes :=
  toBigEndian 8 (timestampAndFlags it) ++ toBigEndian 4 (nameOffset l it)
    ++ toBigEndian 4 (IndexBuilderV2.offsetAndFlags it) ++ toBigEndian 4 it.packedLength.toNat

def entryBytesV1 (l : List Info) (it : Info) : Bytes := contentIDToBytes it.contentID ++ entryValue l it

def fileBytesV1 (l : List Info) : Bytes :=
  (preparedBuilderV1 l).header ++ (l.map (entryBytesV1 l)).flatten ++ extraDataV1 l

variable {l : List Info} {keySize : Nat}

/-- What holds of the entries of an index that is written. -/
structure WrittenV1 (l : List Info) (keySize : Nat) : Prop where
  nonempty : l ≠ []
  keys : ∀ it ∈ l, (contentIDToBytes it.contentID).length = keySize
  long : 2 ≤ keySize
  short : keySize ≤ maxHashSize + 1
  times : ∀ it ∈ l, 0 ≤ it.timestampSeconds ∧ it.timestampSeconds < 2 ^ 48
  offsets : ∀ it ∈ l, it.packOffset.toNat < 2 ^ 31
  names : ∀ it ∈ l, it.packBlobID ≠ [] ∧ it.packBlobID.length ≤ 255
  plain : ∀ it ∈ l, it.compressionHeaderID = 0 ∧ it.encryptionKeyID = 0

@[simp] theorem length_entryValue (it : Info) : (entryValue l it).length = 20 := by simp [entryValue]

theorem length_headerV1 : (preparedBuilderV1 l).header.length = v1HeaderSize := by
  simp [IndexBuilderV1.header,v1HeaderSize]

namespace WrittenV1

theorem keyLength (written : WrittenV1 l keySize) : (preparedBuilderV1 l).keyLength = keySize := by
  match l, written.nonempty, written.keys with
  | first :: _, _, keys => simp [preparedBuilderV1,IndexBuilderV1.prepareExtraData,keys]

theorem writeEntry_eq (written : WrittenV1 l keySize) {it : Info} (member : it ∈ l) :
    (preparedBuilderV1 l).writeEntry it = .ok (entryBytesV1 l it) := by
  have named : ¬it.packBlobID.length = 0 := Nat.ne_of_gt (List.length_pos_of_ne_nil (written.names it member).1)
  simp only [IndexBuilderV1.writeEntry,IndexBuilderV1.formatEntry,written.keys it member,written.keyLength,
    (written.plain it member).1,(written.plain it member).2,ne_eq,not_true,if_false,if_neg named,Except.map]
  rfl

theorem length_entries (written : WrittenV1 l keySize) :
    (l.map (entryBytesV1 l)).flatten.length = l.length * (keySize + 20) := by
  rw [length_flatten_uniform _ (keySize + 20)]
  · rw [List.length_map,Nat.mul_comm]
  · intro record member
    obtain ⟨it,inside,rfl⟩ := List.mem_map.mp member
    simp [entryBytesV1,written.keys it inside]

theorem length_fileBytesV1 (written : WrittenV1 l keySize) : (fileBytesV1 l).length =
    v1HeaderSize + l.length * (keySize + 20) + (extraDataV1 l).length := by
  simp only [fileBytesV1,List.length_append,length_headerV1,written.length_entries]

/-- The extra data starts where the entries say in a file smaller than 2^32 bytes. -/
theorem extraDataOffset (written : WrittenV1 l keySize) (small : (fileBytesV1 l).length < 2 ^ 32) :
    (preparedBuilderV1 l).extraDataOffset = v1HeaderSize + l.length * (keySize + 20) := by
  have whole := written.length_fileBytesV1
  have product : (v1HeaderSize : Int) + (l.length : Int) * ((preparedBuilderV1 l).keyLength + (v1EntryLength : Nat)) =
      ((v1HeaderSize + l.length * (keySize + 20) : Nat) : Int) := by
    rw [written.keyLength]
    push_cast [v1EntryLength]
    rfl
  have offset : (preparedBuilderV1 l).extraDataOffset = (((v1HeaderSize : Int) +
      (l.length : Int) * ((preparedBuilderV1 l).keyLength + (v1EntryLength : Nat))) % 2 ^ 32).toNat := rfl
  rw [offset,product]
  omega

theorem entryCount_lt (written : WrittenV1 l keySize) (small : (fileBytesV1 l).length < 2 ^ 32) : l.length < 2 ^ 32 := by
  have whole := written.length_fileBytesV1
  have entries : l.length * 1 ≤ l.length * (keySize + 20) := Nat.mul_le_mul_left _ (by omega)
  omega

end WrittenV1

theorem buildV1_written {b : Builder} (written : WrittenV1 b.sortedContents keySize) :
    b.buildV1 = .ok (fileBytesV1 b.sortedContents) := by
  unfold Builder.buildV1
  generalize b.sortedContents = l at written
  show Except.bind (l.mapM (preparedBuilderV1 l).writeEntry) _ = _
  rw [mapM_ok fun it member => written.writeEntry_eq member]
  rfl

end File

section Open
variable {l : List Info} {keySize : Nat}

/-- An entry as the readers of version 1 return it. -/
def Info.stored (v1PerContentOverhead : UInt32) (it : Info) : Info :=
  {it with originalLength := it.packedLength - v1PerContentOverhead}

/-- The header that `buildV1` wrote, as it is read back. -/
def writtenHeaderV1 (l : List Info) (keySize : Nat) : V1HeaderInfo := ⟨1,keySize,v1EntryLength,l.length⟩

theorem header_reads {keyByte : UInt8} {count : Nat} (counted : count < 2 ^ 32) (trailing : Bytes) {keySize : Nat}
    (key : keyByte.toNat = keySize) (long : 1 < keySize) :
    v1ReadHeader ([Version1,keyByte] ++ toBigEndian 2 v1EntryLength ++ toBigEndian 4 count ++ trailing) =
      .ok ⟨1,keySize,v1EntryLength,count⟩ := by
  have header : slice ([Version1,keyByte] ++ toBigEndian 2 v1EntryLength ++ toBigEndian 4 count ++ trailing) 0
      v1HeaderSize = some ([Version1,keyByte] ++ toBigEndian 2 v1EntryLength ++ toBigEndian 4 count) :=
    slice_middle [] ([Version1,keyByte] ++ toBigEndian 2 v1EntryLength ++ toBigEndian 4 count) trailing
  have shape : [Version1,keyByte] ++ toBigEndian 2 v1EntryLength ++ toBigEndian 4 count =
      Version1 :: keyByte :: (toBigEndian 2 v1EntryLength ++ (toBigEndian 4 count ++ [])) := by simp
  have version := numberAt_byte [] 0 _ shape rfl
  have keyRead := numberAt_byte [Version1] 1 _ shape rfl
  have value := numberAt_field [Version1,keyByte] 2 2 _ shape rfl
  have entries := numberAt_field ([Version1,keyByte] ++ toBigEndian 2 v1EntryLength) 4 4 count
    (by rw [List.append_nil]) (by simp)
  rw [Nat.mod_eq_of_lt (by omega)] at entries
  rw [v1ReadHeader,header]
  simp only [version,keyRead,key,value,entries,if_neg (not_le.mpr long)]
  rfl

namespace WrittenV1

theorem v1ReadHeader_eq (written : WrittenV1 l keySize) (small : (fileBytesV1 l).length < 2 ^ 32) (trailing : Bytes) :
    v1ReadHeader (fileBytesV1 l ++ trailing) = .ok (writtenHeaderV1 l keySize) := by
  have long := written.long
  have short := written.short
  simp only [maxHashSize] at short
  have key : (UInt8.ofNat ((preparedBuilderV1 l).keyLength % 256).toNat).toNat = keySize := by
    rw [written.keyLength,UInt8.toNat_ofNat']
    omega
  rw [fileBytesV1,List.append_assoc,List.append_assoc]
  exact header_reads (written.entryCount_lt small) _ key (by omega)

theorem slice_entries (written : WrittenV1 l keySize) (trailing : Bytes) {p : Nat} (inside : p < l.length) :
    slice (fileBytesV1 l ++ trailing) (v1HeaderSize + (keySize + v1EntryLength) * p) (keySize + v1EntryLength) =
      some (contentIDToBytes l[p].contentID ++ entryValue l l[p]) := by
  rw [fileBytesV1,List.append_assoc,List.append_assoc,← length_headerV1 (l := l),slice_after]
  refine slice_append ?_ _
  rw [slice_flatten _ (keySize + v1EntryLength) _ p (by simpa using inside)]
  · simp [entryBytesV1]
  · intro record member
    obtain ⟨it,there,rfl⟩ := List.mem_map.mp member
    simp [entryBytesV1,written.keys it there,v1EntryLength]

theorem extraDataV1_names (l : List Info) : NamesAt (preparedBuilderV1 l).packBlobIDOffsets (extraDataV1 l) ∧
    NamesApart (preparedBuilderV1 l).packBlobIDOffsets (extraDataV1 l) ∧
    ∀ name, name ≠ [] → name ∈ l.map Info.packBlobID →
      (preparedBuilderV1 l).packBlobIDOffsets.lookup name ≠ none := by
  obtain ⟨names,noted⟩ := foldl_appendPackName l ([],[]) (fun name off found => by simp at found)
  have apart := foldl_appendPackName_apart l ([],[]) ⟨by simp,by simp⟩
  exact ⟨names,apart,fun name named member => noted name named (Or.inr member)⟩

/-- The file holds the pack name of each entry where the entry says. -/
theorem slice_name (written : WrittenV1 l keySize) (small : (fileBytesV1 l).length < 2 ^ 32) (trailing : Bytes)
    {it : Info} (member : it ∈ l) :
    slice (fileBytesV1 l ++ trailing) (nameOffset l it) it.packBlobID.length = some it.packBlobID ∧
      nameOffset l it < 2 ^ 32 := by
  obtain ⟨placed,_,noted⟩ := extraDataV1_names l
  have whole := written.length_fileBytesV1
  cases place : (preparedBuilderV1 l).packBlobIDOffsets.lookup it.packBlobID with
  | none => exact absurd place (noted _ (written.names it member).1 (List.mem_map_of_mem member))
  | some off =>
    have found := placed _ off place (by omega)
    have bound := slice_inside found
    have start : nameOffset l it = (preparedBuilderV1 l).header.length + ((l.map (entryBytesV1 l)).flatten.length + off) := by
      rw [nameOffset,place,written.extraDataOffset small,written.length_entries,length_headerV1,Option.getD_some]
      omega
    constructor
    · rw [start,fileBytesV1,List.append_assoc,List.append_assoc,slice_after,slice_after]
      exact slice_append found trailing
    · rw [nameOffset,place,written.extraDataOffset small,Option.getD_some]
      omega

/-- Entries that are sent to one place have one pack name. -/
theorem packBlobID_eq (written : WrittenV1 l keySize) (small : (fileBytesV1 l).length < 2 ^ 32) {it it' : Info}
    (member : it ∈ l) (member' : it' ∈ l) (same : nameOffset l it = nameOffset l it') :
    it.packBlobID = it'.packBlobID := by
  obtain ⟨_,names,noted⟩ := extraDataV1_names l
  have whole := written.length_fileBytesV1
  cases place : (preparedBuilderV1 l).packBlobIDOffsets.lookup it.packBlobID with
  | none => exact absurd place (noted _ (written.names it member).1 (List.mem_map_of_mem member))
  | some off =>
    cases place' : (preparedBuilderV1 l).packBlobIDOffsets.lookup it'.packBlobID with
    | none => exact absurd place' (noted _ (written.names it' member').1 (List.mem_map_of_mem member'))
    | some off' =>
      rw [nameOffset,nameOffset,place,place',Option.getD_some,Option.getD_some] at same
      have equal : off = off' := by omega
      exact names.apart _ _ off place (equal ▸ place') (by omega)

theorem timestampAndFlags_eq {it : Info} (early : 0 ≤ it.timestampSeconds) (late : it.timestampSeconds < 2 ^ 48)
    (name : it.packBlobID.length ≤ 255) : timestampAndFlags it =
      it.timestampSeconds.toNat * 2 ^ 16 + (it.formatVersion.toNat * 2 ^ 8 + it.packBlobID.length) := by
  have version := it.formatVersion.toNat_lt
  have time : (it.timestampSeconds % 2 ^ 48).toNat = it.timestampSeconds.toNat := by omega
  have length : it.packBlobID.length % 2 ^ 64 = it.packBlobID.length := by omega
  rw [timestampAndFlags,time,length,Nat.or_assoc,
    ← Nat.shiftLeft_add_eq_or_of_lt (i := 8) (b := it.packBlobID.length) (by omega) it.formatVersion.toNat,
    Nat.shiftLeft_eq it.formatVersion.toNat,← Nat.shiftLeft_add_eq_or_of_lt (by omega),Nat.shiftLeft_eq]

/-- The time, the format version and the length of the pack name share one number. -/
theorem entryValue_time {it : Info} (early : 0 ≤ it.timestampSeconds) (late : it.timestampSeconds < 2 ^ 48)
    (name : it.packBlobID.length ≤ 255) : (numberAt (entryValue l it) 0 6 : Int) = it.timestampSeconds ∧
      numberAt (entryValue l it) 6 1 = it.formatVersion.toNat ∧ numberAt (entryValue l it) 7 1 = it.packBlobID.length := by
  have version := it.formatVersion.toNat_lt
  have eq := timestampAndFlags_eq early late name
  have shape : entryValue l it = toBigEndian 6 (timestampAndFlags it / 256 ^ 2) ++
      (toBigEndian 1 (timestampAndFlags it / 256 ^ 1) ++ (toBigEndian 1 (timestampAndFlags it) ++
        (toBigEndian 4 (nameOffset l it) ++ (toBigEndian 4 (IndexBuilderV2.offsetAndFlags it) ++
          toBigEndian 4 it.packedLength.toNat)))) := by
    rw [entryValue,toBigEndian_add 6 2,toBigEndian_add 1 1]
    simp only [List.append_assoc]
  have time := numberAt_field [] 0 6 _ shape rfl
  have format := numberAt_field _ 6 1 _ shape (by simp)
  have length := numberAt_field (toBigEndian 6 (timestampAndFlags it / 256 ^ 2) ++
    toBigEndian 1 (timestampAndFlags it / 256 ^ 1)) 7 1 (timestampAndFlags it)
    (shape.trans (List.append_assoc _ _ _).symm) (by simp)
  rw [eq] at time format length
  omega

theorem entryValue_name {it : Info} (inside : nameOffset l it < 2 ^ 32) :
    numberAt (entryValue l it) 8 4 = nameOffset l it := by
  have shape : entryValue l it = toBigEndian 8 (timestampAndFlags it) ++ (toBigEndian 4 (nameOffset l it) ++
      (toBigEndian 4 (IndexBuilderV2.offsetAndFlags it) ++ toBigEndian 4 it.packedLength.toNat)) := by
    rw [entryValue,List.append_assoc,List.append_assoc]
  have field := numberAt_field (toBigEndian 8 (timestampAndFlags it)) 8 4 (nameOffset l it) shape (by simp)
  rw [field]
  omega

theorem entryValue_packedLength (it : Info) : numberAt (entryValue l it) 16 4 = it.packedLength.toNat := by
  have bound := it.packedLength.toNat_lt
  have shape : entryValue l it = toBigEndian 8 (timestampAndFlags it) ++ toBigEndian 4 (nameOffset l it) ++
      toBigEndian 4 (IndexBuilderV2.offsetAndFlags it) ++ (toBigEndian 4 it.packedLength.toNat ++ []) := by
    rw [entryValue,List.append_nil]
  have field := numberAt_field (toBigEndian 8 (timestampAndFlags it) ++
    toBigEndian 4 (nameOffset l it) ++ toBigEndian 4 (IndexBuilderV2.offsetAndFlags it)) 16 4 it.packedLength.toNat
    shape (by simp)
  rw [field]
  omega

/-- The index that `Open` makes of the file. -/
def opened (l : List Info) (keySize : Nat) (v1PerContentOverhead : UInt32) (trailing : Bytes) : IndexV1 :=
  ⟨writtenHeaderV1 l keySize,fileBytesV1 l ++ trailing,v1PerContentOverhead⟩

variable {v1PerContentOverhead : UInt32} {trailing : Bytes} {names : NameMap}

/-- The remembered pack names are those that the entries have. -/
def Remember (l : List Info) (names : NameMap) : Prop :=
  ∀ it ∈ l, ∀ name, names.lookup (nameOffset l it) = some name → name = it.packBlobID

/-- An entry decodes to what was written, and what is remembered stays right. -/
theorem entryToInfoStruct_eq (written : WrittenV1 l keySize) (small : (fileBytesV1 l).length < 2 ^ 32)
    (remember : Remember l names) {it : Info} (member : it ∈ l) (id : ID) : ∃ names',
      (opened l keySize v1PerContentOverhead trailing).entryToInfoStruct names id (entryValue l it) =
        (.ok {it.stored v1PerContentOverhead with contentID := id},names') ∧ Remember l names' := by
  obtain ⟨found,inside⟩ := written.slice_name small trailing member
  obtain ⟨early,late⟩ := written.times it member
  obtain ⟨time,format,length⟩ := entryValue_time (l := l) early late (written.names it member).2
  have shape : entryValue l it = toBigEndian 8 (timestampAndFlags it) ++ toBigEndian 4 (nameOffset l it) ++
      (toBigEndian 4 (IndexBuilderV2.offsetAndFlags it) ++ toBigEndian 4 it.packedLength.toNat) := by
    simp only [entryValue,List.append_assoc]
  have position : (toBigEndian 8 (timestampAndFlags it) ++ toBigEndian 4 (nameOffset l it)).length = 12 := by simp
  obtain ⟨deleted,place⟩ := IndexBuilderV2.offsetAndFlags_decodes (written.offsets it member) shape position
  have name := entryValue_name inside
  obtain ⟨plain,noKey⟩ := written.plain it member
  have names' : ∃ names', (opened l keySize v1PerContentOverhead trailing).packBlobIDForOffset names (nameOffset l it)
      it.packBlobID.length = (it.packBlobID,names') ∧ Remember l names' := by
    unfold IndexV1.packBlobIDForOffset
    cases known : names.lookup (nameOffset l it) with
    | some old =>
      rw [remember it member old known]
      exact ⟨names,rfl,remember⟩
    | none =>
      simp only [opened,found]
      refine ⟨_,rfl,fun other there name noted => ?_⟩
      rw [List.lookup_cons] at noted
      split at noted
      next same =>
        cases Option.some.inj noted
        exact written.packBlobID_eq small member there (by simpa using (beq_iff_eq.mp same).symm)
      next => exact remember other there name noted
  obtain ⟨names',read,kept⟩ := names'
  refine ⟨names',?_,kept⟩
  rw [IndexV1.entryToInfoStruct,if_neg (by simp [v1EntryLength]),name,length,read]
  simp only [time,format,deleted,place,entryValue_packedLength,UInt32.ofNat_toNat,UInt8.ofNat_toNat]
  simp only [Info.stored,← plain,← noKey,opened]

theorem settled (written : WrittenV1 l keySize) (small : (fileBytesV1 l).length < 2 ^ 32) :
    (opened l keySize v1PerContentOverhead trailing).Settled (Remember l) := by
  intro names remember p inside entry read id
  have within : p < l.length := inside
  have shape : entry = contentIDToBytes l[p].contentID ++ entryValue l l[p] :=
    Option.some.inj (read.symm.trans (written.slice_entries trailing within))
  have tail : entry.drop (opened l keySize v1PerContentOverhead trailing).hdr.keySize = entryValue l l[p] := by
    rw [shape]
    exact List.drop_left' (written.keys _ (List.getElem_mem within))
  obtain ⟨names',decoded,kept⟩ := entryToInfoStruct_eq written small remember (List.getElem_mem within) id
  obtain ⟨_,fresh,_⟩ := entryToInfoStruct_eq written small (by simp [Remember] : Remember l []) (List.getElem_mem within) id
  exact ⟨names',by rw [tail,decoded,IndexV1.table_decode,fresh],kept⟩

/-- The table of the file represents the entries that were written. -/
theorem represents (written : WrittenV1 l keySize) (small : (fileBytesV1 l).length < 2 ^ 32) :
    (opened l keySize v1PerContentOverhead trailing).table.Represents (l.map (Info.stored v1PerContentOverhead)) where
  entryCount := by simp [IndexV1.table,opened,writtenHeaderV1]
  keySize := by
    intro i member
    obtain ⟨it,there,rfl⟩ := List.mem_map.mp member
    exact written.keys it there
  known := by
    have short := written.short
    simp only [maxHashSize] at short
    simp only [IndexV1.table,opened,writtenHeaderV1,unknownKeySize]
    omega
  stride := by simp [IndexV1.table]
  entry := by
    intro p inside
    rw [List.length_map] at inside
    obtain ⟨_,decoded,_⟩ := entryToInfoStruct_eq written small (by simp [Remember] : Remember l []) (List.getElem_mem inside) l[p].contentID
    refine ⟨entryValue l l[p],?_,?_⟩
    · rw [List.getElem_map]
      exact written.slice_entries trailing inside
    · rw [List.getElem_map,IndexV1.table_decode]
      exact congrArg Prod.fst decoded

end WrittenV1

end Open

section RoundTrip
variable {b : Builder}

/-- The entries that an index of version 1 can hold. -/
structure Builder.EncodableV1 (b : Builder) : Prop where
  valid : ∀ i ∈ b.infos, i.contentID.Valid
  lengths : ∀ i ∈ b.infos, ∀ j ∈ b.infos,
    (contentIDToBytes i.contentID).length = (contentIDToBytes j.contentID).length
  times : ∀ i ∈ b.infos, 0 ≤ i.timestampSeconds ∧ i.timestampSeconds < 2 ^ 48
  offsets : ∀ i ∈ b.infos, i.packOffset.toNat < 2 ^ 31
  names : ∀ i ∈ b.infos, i.packBlobID ≠ [] ∧ i.packBlobID.length ≤ 255
  plain : ∀ i ∈ b.infos, i.compressionHeaderID = 0 ∧ i.encryptionKeyID = 0

theorem Builder.EncodableV1.written (encodable : b.EncodableV1) (some : b.infos ≠ []) :
    ∃ keySize, WrittenV1 b.sortedContents keySize := by
  obtain ⟨first,member⟩ := List.exists_mem_of_ne_nil _ some
  have key := encodable.valid first member
  have length : (contentIDToBytes first.contentID).length = first.contentID.data.length + 1 := rfl
  have bounds := key.2
  have inside : ∀ i ∈ b.sortedContents, i ∈ b.infos := fun i => mem_sortedContents.mp
  refine ⟨(contentIDToBytes first.contentID).length,?_,fun i there => ?_,by omega,by omega,
    fun i there => encodable.times i (inside i there),fun i there => encodable.offsets i (inside i there),
    fun i there => encodable.names i (inside i there),fun i there => encodable.plain i (inside i there)⟩
  · exact List.ne_nil_of_mem (mem_sortedContents.mpr member)
  · exact encodable.lengths i (inside i there) first member

/-- The index that `Open` makes of the file of an empty index. -/
def emptyV1 (v1PerContentOverhead : UInt32) (trailing : Bytes) : IndexV1 :=
  ⟨⟨1,unknownKeySize,v1EntryLength,0⟩,fileBytesV1 [] ++ trailing,v1PerContentOverhead⟩

theorem fileBytesV1_nil : fileBytesV1 [] = [1,255,0,20,0,0,0,0] := by decide

theorem buildV1_empty (none : b.infos = []) : b.buildV1 = .ok (fileBytesV1 []) := by
  have empty : b.sortedContents = [] := List.eq_nil_iff_forall_not_mem.mpr fun i member => by
    simpa [none] using mem_sortedContents.mp member
  unfold Builder.buildV1
  rw [empty]
  rfl

theorem Open_v1 {v1PerContentOverhead : Nat} {data : Bytes} {h : V1HeaderInfo} (header : v1ReadHeader data = .ok h)
    (version : h.version = 1) : Open v1PerContentOverhead data =
      .ok (.v1 ⟨h,data,UInt32.ofNat v1PerContentOverhead⟩) := by
  have one : h.version = Version1.toNat := version
  rw [Open,header]
  simp only [one,if_true]

/-- The index read back from what `buildV1` wrote, whatever follows it. -/
theorem buildV1_opens (encodable : b.EncodableV1) : ∃ out, b.buildV1 = .ok out ∧ (out.length < 2 ^ 32 →
    ∀ (v1PerContentOverhead : Nat) (trailing : Bytes), ∃ (ndx : IndexV1) (valid : ValidIndex ReadError),
      Open v1PerContentOverhead (out ++ trailing) = .ok (.v1 ndx) ∧
      (∀ names, ndx.Remembers names → (PackIndex.v1 ndx).opened names = valid.toOpenedIndex) ∧
      valid.entries = b.sortedContents.map (Info.stored (UInt32.ofNat v1PerContentOverhead))) := by
  by_cases none : b.infos = []
  · refine ⟨_,buildV1_empty none,fun _ v1PerContentOverhead trailing => ?_⟩
    have header : v1ReadHeader (fileBytesV1 [] ++ trailing) = .ok ⟨1,unknownKeySize,v1EntryLength,0⟩ := by
      rw [fileBytesV1_nil]
      have counted : 0 < 2 ^ 32 := by decide
      have byte : (255 : UInt8).toNat = unknownKeySize := rfl
      exact header_reads counted trailing byte (by decide)
    have settled : (emptyV1 (UInt32.ofNat v1PerContentOverhead) trailing).Settled fun _ => True := by
      intro names _ p inside
      simp [emptyV1] at inside
    have empty : b.sortedContents = [] := List.eq_nil_iff_forall_not_mem.mpr fun i member => by
      simpa [none] using mem_sortedContents.mp member
    refine ⟨emptyV1 (UInt32.ofNat v1PerContentOverhead) trailing,
      Table.toEmpty (emptyV1 (UInt32.ofNat v1PerContentOverhead) trailing).table rfl rfl,Open_v1 header rfl,?_,?_⟩
    · exact fun names _ => settled.opened trivial
    · rw [empty]
      rfl
  · obtain ⟨keySize,written⟩ := encodable.written none
    refine ⟨_,buildV1_written written,fun small v1PerContentOverhead trailing => ?_⟩
    have sorted := pairwise_sortedContents encodable.valid
    have represents : (WrittenV1.opened b.sortedContents keySize (UInt32.ofNat v1PerContentOverhead) trailing).table.Represents
        (b.sortedContents.map (Info.stored (UInt32.ofNat v1PerContentOverhead))) := written.represents small
    have settled : (WrittenV1.opened b.sortedContents keySize (UInt32.ofNat v1PerContentOverhead) trailing).Settled
        (WrittenV1.Remember b.sortedContents) := written.settled small
    refine ⟨_,represents.toValid ?_ (List.pairwise_map.mpr sorted) (by simpa using written.nonempty),
      Open_v1 (written.v1ReadHeader_eq small trailing) rfl,fun names remembers => ?_,rfl⟩
    · intro i member
      obtain ⟨it,there,rfl⟩ := List.mem_map.mp member
      exact encodable.valid it (mem_sortedContents.mp there)
    · exact settled.opened (settled.remembers (by simp [WrittenV1.Remember]) remembers)

/-- `buildV1` writes every index that the format can hold. From a file smaller than 2^32
bytes it is read back as it was, with an original length made of the packed one, whatever
has been looked up before. -/
theorem buildV1_roundTrip (encodable : b.EncodableV1) : ∃ out, b.buildV1 = .ok out ∧ (out.length < 2 ^ 32 →
    ∀ v1PerContentOverhead trailing, ∃ ndx, Open v1PerContentOverhead (out ++ trailing) = .ok (.v1 ndx) ∧
      ∀ names, ndx.Remembers names →
        (∀ id : ID, (∀ i ∈ b.infos, (contentIDToBytes i.contentID).length = (contentIDToBytes id).length) →
          (ndx.GetInfo names id).1 = .ok ((b.get? id).map (Info.stored (UInt32.ofNat v1PerContentOverhead)))) ∧
        (∀ id : ID, ¬(∀ i ∈ b.infos, (contentIDToBytes i.contentID).length = (contentIDToBytes id).length) →
          ∃ e, (ndx.GetInfo names id).1 = .error e) ∧
        ∀ r : IDRange, ∃ entries, (ndx.Iterate names r).1 = (entries,none) ∧
          (entries.Pairwise fun i j => i.contentID.less j.contentID) ∧
          ∀ i, i ∈ entries ↔ ∃ j ∈ b.infos, r.Contains j.contentID ∧ j.stored (UInt32.ofNat v1PerContentOverhead) = i) := by
  obtain ⟨out,done,opens⟩ := buildV1_opens encodable
  refine ⟨out,done,fun small v1PerContentOverhead trailing => ?_⟩
  obtain ⟨ndx,valid,opened,same,entries⟩ := opens small v1PerContentOverhead trailing
  refine ⟨ndx,opened,fun names remembers => ?_⟩
  have answers := same names remembers
  have sorted := pairwise_sortedContents encodable.valid
  have keys (id : ID) : (∀ i ∈ b.infos, (contentIDToBytes i.contentID).length = (contentIDToBytes id).length) ↔
      ∀ i ∈ valid.entries, (contentIDToBytes i.contentID).length = (contentIDToBytes id).length := by
    simp only [entries,List.forall_mem_map,mem_sortedContents]
    rfl
  refine ⟨fun id lengths => ?_,fun id lengths => ?_,fun r => ?_⟩
  · have looked : (ndx.GetInfo names id).1 = valid.GetInfo id := congrFun (congrArg OpenedIndex.GetInfo answers) id
    rw [looked,valid.finds id ((keys id).mp lengths),entries,List.find?_map,b.get?_eq_find? sorted fun i => mem_sortedContents]
    rfl
  · have looked : (ndx.GetInfo names id).1 = valid.GetInfo id := congrFun (congrArg OpenedIndex.GetInfo answers) id
    rw [looked]
    exact valid.refuses id fun all => lengths ((keys id).mpr all)
  · have iterated : (ndx.Iterate names r).1 = valid.Iterate r := congrFun (congrArg OpenedIndex.Iterate answers) r
    refine ⟨_,iterated.trans (valid.iterates r),(valid.sorted.filter _).imp ID.less_iff.mpr,fun i => ?_⟩
    rw [List.mem_filter,entries,List.mem_map]
    constructor
    · rintro ⟨⟨j,member,rfl⟩,contains⟩
      exact ⟨j,mem_sortedContents.mp member,contains,rfl⟩
    · rintro ⟨j,member,contains,rfl⟩
      exact ⟨⟨j,mem_sortedContents.mpr member,rfl⟩,contains⟩

theorem deletedInfo_encodable : (Builder.empty.set deletedInfo).EncodableV1 :=
  ⟨by decide,by decide,by decide,by decide,by decide,by decide⟩

theorem buildV1_roundTrip_deletedInfo : ∃ out ndx, (Builder.empty.set deletedInfo).buildV1 = .ok out ∧
    Open 28 (out ++ [7]) = .ok (.v1 ndx) ∧
    (ndx.GetInfo [] deletedInfo.contentID).1 = .ok (some {deletedInfo with originalLength := 7 - 28}) := by
  obtain ⟨out,done,reads⟩ := buildV1_roundTrip deletedInfo_encodable
  have written : WrittenV1 [deletedInfo] 2 :=
    ⟨by decide,by decide,by decide,by decide,by decide,by decide,by decide,by decide⟩
  have small : out.length < 2 ^ 32 := by
    rw [buildV1_written (deletedInfo_sorted ▸ written),deletedInfo_sorted] at done
    cases Except.ok.inj done
    rw [written.length_fileBytesV1]
    decide
  obtain ⟨ndx,opened,lookup⟩ := reads small 28 [7]
  exact ⟨out,ndx,done,opened,(lookup [] .opened).1 deletedInfo.contentID (by decide)⟩

/-- An entry with the number `n` for an identifier. -/
def numberedInfo (n : Nat) : Info := {deletedInfo with contentID := ⟨0,toBigEndian 4 n⟩}

def numberedBuilder (count : Nat) : Builder := Builder.empty.addAll ((List.range count).map numberedInfo)

theorem numberedInfo_injective {m n : Nat} (small : m < 2 ^ 32) (small' : n < 2 ^ 32)
    (same : (numberedInfo m).contentID = (numberedInfo n).contentID) : m = n := by
  have bytes : toBigEndian 4 m = toBigEndian 4 n := congrArg ID.data same
  have values := congrArg ofBigEndian bytes
  rwa [ofBigEndian_of_lt (by omega),ofBigEndian_of_lt (by omega)] at values

theorem numberedBuilder_infos {count : Nat} (bound : count ≤ 2 ^ 32) :
    (numberedBuilder count).infos.Perm ((List.range count).map numberedInfo) := by
  have distinct : (((List.range count).map numberedInfo).map Info.contentID).Nodup := by
    rw [List.map_map]
    refine List.Nodup.map_on ?_ List.nodup_range
    intro m first n second same
    exact numberedInfo_injective (by have := List.mem_range.mp first; omega)
      (by have := List.mem_range.mp second; omega) same
  refine (List.perm_ext_iff_of_nodup (List.Nodup.of_map _ (numberedBuilder count).nodup_contentIDs)
    (List.Nodup.of_map _ distinct)).mpr fun i => ?_
  rw [Builder.mem_infos,numberedBuilder,Builder.get?_addAll_of_nodup _ distinct (by simp),Builder.get?_empty,Option.or_none]
  constructor
  · exact fun found => List.mem_of_find?_eq_some found
  · intro member
    cases found : ((List.range count).map numberedInfo).find? fun j => j.contentID = i.contentID with
    | none => simpa using List.find?_eq_none.mp found i member
    | some j =>
      have own : j.contentID = i.contentID := by simpa using List.find?_some found
      exact congrArg some (List.inj_on_of_nodup_map distinct (List.mem_of_find?_eq_some found) member own)

theorem numberedBuilder_encodable {count : Nat} (bound : count ≤ 2 ^ 32) : (numberedBuilder count).EncodableV1 := by
  have numbered : ∀ i ∈ (numberedBuilder count).infos, ∃ n, i = numberedInfo n := by
    intro i member
    obtain ⟨n,_,same⟩ := List.mem_map.mp ((numberedBuilder_infos bound).mem_iff.mp member)
    exact ⟨n,same.symm⟩
  refine ⟨fun i member => ?_,fun i member j member' => ?_,fun i member => ?_,fun i member => ?_,fun i member => ?_,
    fun i member => ?_⟩ <;> obtain ⟨n,rfl⟩ := numbered i member
  · exact ⟨Or.inl rfl,by simp [numberedInfo],by simp [numberedInfo,maxHashSize]⟩
  · obtain ⟨m,rfl⟩ := numbered j member'
    simp [numberedInfo,contentIDToBytes]
  · simp [numberedInfo,deletedInfo]
  · simp [numberedInfo,deletedInfo]
  · simp [numberedInfo,deletedInfo]
  · simp [numberedInfo,deletedInfo]

/-- A count of 2^32 entries is written as none. -/
theorem buildV1_wraps {count : Nat} (bound : count ≤ 2 ^ 32) (positive : 0 < count) (wraps : count % 2 ^ 32 = 0)
    (v1PerContentOverhead : Nat) : ∃ out ndx, (numberedBuilder count).buildV1 = .ok out ∧
      Open v1PerContentOverhead out = .ok (.v1 ndx) ∧ (ndx.GetInfo [] (numberedInfo 0).contentID).1 = .ok none ∧
      (numberedBuilder count).get? (numberedInfo 0).contentID = some (numberedInfo 0) := by
  have encodable := numberedBuilder_encodable bound
  have member : numberedInfo 0 ∈ (numberedBuilder count).infos :=
    (numberedBuilder_infos bound).mem_iff.mpr (List.mem_map_of_mem (List.mem_range.mpr positive))
  have length : (numberedBuilder count).sortedContents.length = count := by
    rw [(sortedContents_perm encodable.valid).length_eq,(numberedBuilder_infos bound).length_eq]
    simp
  obtain ⟨keySize,written⟩ := encodable.written (List.ne_nil_of_mem member)
  have five : keySize = 5 := (written.keys _ (mem_sortedContents.mpr member)).symm
  subst five
  have done := buildV1_written written
  have key : (preparedBuilderV1 (numberedBuilder count).sortedContents).keyLength = 5 := written.keyLength
  generalize (numberedBuilder count).sortedContents = l at length done key
  have counted : toBigEndian 4 l.length = toBigEndian 4 0 := by
    rw [← toBigEndian_mod 4 l.length,length]
    exact congrArg (toBigEndian 4) wraps
  have header : v1ReadHeader (fileBytesV1 l) = .ok ⟨1,5,v1EntryLength,0⟩ := by
    have shape : (preparedBuilderV1 l).header = [Version1,5] ++ toBigEndian 2 v1EntryLength ++ toBigEndian 4 0 := by
      rw [IndexBuilderV1.header,key,← counted]
      rfl
    rw [fileBytesV1,shape,List.append_assoc]
    exact header_reads (by decide) _ rfl (by decide)
  refine ⟨fileBytesV1 l,_,done,Open_v1 header rfl,?_,Builder.mem_infos.mp member⟩
  simp [IndexV1.GetInfo,IndexV1.findEntry,Table.findEntry,IndexV1.table,Table.findEntryPositionExact,unknownKeySize,
    contentIDToBytes,numberedInfo,search,searchFrom]

/-- A lookup in the file of 2^32 entries does not find the first of them. -/
theorem buildV1_forgets_entries : (numberedBuilder (2 ^ 32)).EncodableV1 ∧
    ∃ out ndx, (numberedBuilder (2 ^ 32)).buildV1 = .ok out ∧ Open 0 out = .ok (.v1 ndx) ∧
      (ndx.GetInfo [] (numberedInfo 0).contentID).1 = .ok none ∧
      (numberedBuilder (2 ^ 32)).get? (numberedInfo 0).contentID = some (numberedInfo 0) :=
  ⟨numberedBuilder_encodable (le_refl _),buildV1_wraps (le_refl _) (by omega) (by omega) 0⟩

end RoundTrip

end Vbe.Index
