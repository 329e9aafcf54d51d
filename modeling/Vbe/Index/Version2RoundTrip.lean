import Vbe.Index.Version2Entry
import Vbe.Index.Version2Readers
import Vbe.Library.Results

/-! Reading back what `buildV2` wrote. The build is analysed once, as the list of
its sections; opening and the two readers then only use the positions of the
sections and what one entry decodes to. -/
namespace Vbe.Index
open Vbe.Library.Bytes Vbe.Library.Distinct Vbe.Library.Search Vbe.Library.Results

section Limits

/-- The limits of the format on the entries of one index. -/
structure WithinLimits (l : List Info) : Prop where
  formats : (buildUniqueFormatToIndexMap l).length ≤ v2MaxFormatCount
  packs : (buildPackIDToIndexMap l).length ≤ v2MaxUniquePackIDCount
  packed : ∀ it ∈ l, it.packedLength.toNat < v2MaxContentLength
  original : ∀ it ∈ l, it.originalLength.toNat < v2MaxContentLength
  offset : ∀ it ∈ l, it.packOffset.toNat < v2MaxPackOffset

/-- The builder `newIndexBuilderV2` returns when it returns one. -/
def limitedBuilder (l : List Info) : IndexBuilderV2 where
  packBlobIDOffsets := []
  keyLength := keyLengthV2 l
  entrySize := entrySizeV2 (buildUniqueFormatToIndexMap l).length (buildPackIDToIndexMap l).length
    (maxOf Info.packedLength l) (maxOf Info.originalLength l)
  entryCount := l.length
  extraDataOffset := 0
  uniqueFormatInfo2Index := buildUniqueFormatToIndexMap l
  packID2Index := buildPackIDToIndexMap l
  baseTimestamp := 0

theorem newIndexBuilderV2_within {l : List Info} (limits : WithinLimits l) :
    newIndexBuilderV2 l = .ok (limitedBuilder l) := by
  have formats := limits.formats
  have packs := limits.packs
  have packed := (maxOf_lt (by decide)).mpr limits.packed
  have original := (maxOf_lt (by decide)).mpr limits.original
  have offset := (maxOf_lt (by decide)).mpr limits.offset
  rw [newIndexBuilderV2,if_neg (by omega),if_neg (by omega),if_neg (by omega),if_neg (by omega)]
  rfl

theorem newIndexBuilderV2_beyond {l : List Info} (limits : ¬ WithinLimits l) :
    ∃ e, newIndexBuilderV2 l = .error e ∧ ∀ buf n, e ≠ .encodingBug buf n := by
  unfold newIndexBuilderV2
  dsimp only
  split
  next => exact ⟨_,rfl,fun _ _ => by simp⟩
  next formats =>
    split
    next => exact ⟨_,rfl,fun _ _ => by simp⟩
    next packs =>
      split
      next => exact ⟨_,rfl,fun _ _ => by simp⟩
      next lengths =>
        split
        next => exact ⟨_,rfl,fun _ _ => by simp⟩
        next offset =>
          rw [not_or] at lengths
          refine absurd ⟨by omega,by omega,?_,?_,?_⟩ limits
          · exact (maxOf_lt (by decide)).mp (by omega)
          · exact (maxOf_lt (by decide)).mp (by omega)
          · exact (maxOf_lt (by decide)).mp (by omega)

/-- The entry size leaves room for every optional byte that some entry needs. -/
theorem entrySizeV2_bounds (formats packs packed original : Nat) :
    v2EntryMinLength ≤ entrySizeV2 formats packs packed original ∧
    entrySizeV2 formats packs packed original ≤ v2EntryMaxLength ∧
    (1 < formats → v2EntryOffsetFormatID < entrySizeV2 formats packs packed original) ∧
    (v2MaxShortPackIDCount < packs → v2EntryOffsetExtendedPackBlobID < entrySizeV2 formats packs packed original) ∧
    (v2MaxShortContentLength ≤ packed ∨ v2MaxShortContentLength ≤ original →
      v2EntryOffsetHighLengthBits < entrySizeV2 formats packs packed original) := by
  simp only [entrySizeV2,v2EntryMinLength,v2EntryMaxLength,v2EntryOffsetFormatID,
    v2EntryOffsetExtendedPackBlobID,v2EntryOffsetHighLengthBits]
  split <;> split <;> split <;> omega

theorem limitedBuilder_fits {l : List Info} (limits : WithinLimits l) {it : Info} (member : it ∈ l) :
    (limitedBuilder l).Fits it := by
  obtain ⟨least,most,format,pack,high⟩ := entrySizeV2_bounds (buildUniqueFormatToIndexMap l).length
    (buildPackIDToIndexMap l).length (maxOf Info.packedLength l) (maxOf Info.originalLength l)
  refine ⟨limits.formats,limits.packs,?_,?_,limits.packed it member,limits.original it member,
    limits.offset it member,rfl,⟨least,most⟩,format,pack,fun large => high ?_⟩
  · exact mem_distinct.mpr (List.mem_map_of_mem member)
  · exact mem_distinct.mpr (List.mem_map_of_mem member)
  · have positive : 0 < v2MaxShortContentLength := by decide
    refine large.imp ?_ ?_
    · exact fun packed => not_lt.mp fun small => absurd ((maxOf_lt positive).mp small it member) (not_lt.mpr packed)
    · exact fun original => not_lt.mp fun small => absurd ((maxOf_lt positive).mp small it member) (not_lt.mpr original)

end Limits

section Names

/-- Where the extra data of an index smaller than 2^32 bytes holds the pack
names. -/
def NamesAt (offsets : List (BlobID × Nat)) (extraData : Bytes) : Prop :=
  ∀ name off, offsets.lookup name = some off → extraData.length < 2 ^ 32 →
    slice extraData off name.length = some name

theorem appendPackName_names {state : List (BlobID × Nat) × Bytes} (names : NamesAt state.1 state.2) (it : Info) :
    NamesAt (appendPackName state it).1 (appendPackName state it).2 := by
  unfold appendPackName
  split
  next fresh =>
    intro name off found small
    simp only [List.length_append] at small
    rw [List.lookup_append,Option.or_eq_some_iff] at found
    rcases found with old | ⟨_,new⟩
    · exact slice_append (names name off old (by omega)) it.packBlobID
    · simp only [List.lookup_cons,List.lookup_nil] at new
      split at new
      next same =>
        have equal : name = it.packBlobID := by simpa using same
        cases Option.some.inj new
        rw [Nat.mod_eq_of_lt (by omega),equal]
        simpa using slice_middle state.2 it.packBlobID []
      next => contradiction
  next => exact names

theorem appendPackName_lookup {state : List (BlobID × Nat) × Bytes} (it : Info) {name : BlobID} (named : name ≠ [])
    (noted : state.1.lookup name ≠ none ∨ it.packBlobID = name) : (appendPackName state it).1.lookup name ≠ none := by
  unfold appendPackName
  split
  next fresh =>
    rw [List.lookup_append]
    rcases noted with old | rfl
    · cases found : state.1.lookup name with
      | none => exact absurd found old
      | some off => simp
    · simp [fresh.2]
  next kept =>
    rcases noted with old | rfl
    · exact old
    · exact fun absent => kept ⟨named,absent⟩

/-- Every entry's pack name is in the extra data. -/
theorem foldl_appendPackName (l : List Info) : ∀ state : List (BlobID × Nat) × Bytes, NamesAt state.1 state.2 →
    NamesAt (l.foldl appendPackName state).1 (l.foldl appendPackName state).2 ∧
    ∀ name, name ≠ [] → state.1.lookup name ≠ none ∨ name ∈ l.map Info.packBlobID →
      (l.foldl appendPackName state).1.lookup name ≠ none := by
  induction l with
  | nil => exact fun state names => ⟨names,fun name _ noted => by simpa using noted⟩
  | cons it l ih =>
    intro state names
    obtain ⟨after,noted⟩ := ih (appendPackName state it) (appendPackName_names names it)
    refine ⟨after,fun name named present => noted name named ?_⟩
    rcases present with old | member
    · exact Or.inl (appendPackName_lookup it named (Or.inl old))
    · rcases List.mem_cons.mp (List.map_cons ▸ member) with rfl | later
      · exact Or.inl (appendPackName_lookup it named (Or.inr rfl))
      · exact Or.inr later

end Names

section File

/-- The builder as `buildV2` uses it to write, and the extra data. -/
def preparedBuilder (l : List Info) : IndexBuilderV2 := ((limitedBuilder l).prepareExtraData l).1

def extraData (l : List Info) : Bytes := ((limitedBuilder l).prepareExtraData l).2

def entryBytes (l : List Info) (it : Info) : Bytes :=
  contentIDToBytes it.contentID ++ ((preparedBuilder l).valueBuffer it).take (preparedBuilder l).entrySize

def entriesSection (l : List Info) : Bytes := (l.map (entryBytes l)).flatten

def packsSection (l : List Info) : Bytes :=
  ((buildPackIDToIndexMap l).map (preparedBuilder l).writePackIDEntry).flatten

def formatsSection (l : List Info) : Bytes := ((buildUniqueFormatToIndexMap l).map writeFormatInfoEntry).flatten

def fileBytes (l : List Info) : Bytes :=
  (preparedBuilder l).header ++ entriesSection l ++ packsSection l ++ formatsSection l ++ extraData l

variable {l : List Info} {keySize : Nat}

/-- What holds of the entries of an index that is written. -/
structure Written (l : List Info) (keySize : Nat) : Prop where
  limits : WithinLimits l
  some : l ≠ []
  keys : ∀ it ∈ l, (contentIDToBytes it.contentID).length = keySize
  long : 2 ≤ keySize
  short : keySize ≤ maxHashSize + 1

theorem preparedBuilder_fits (limits : WithinLimits l) {it : Info} (member : it ∈ l) :
    (preparedBuilder l).Fits it := by
  have fits := limitedBuilder_fits limits member
  exact ⟨fits.formats,fits.packs,fits.format,fits.pack,fits.packed,fits.original,fits.offset,fits.base,
    fits.entrySize,fits.formatKept,fits.packKept,fits.highKept⟩

namespace Written

theorem keyLengthV2_eq (written : Written l keySize) : keyLengthV2 l = keySize := by
  match l, written.some, written.keys with
  | first :: _, _, keys => simp [keyLengthV2,keys]

theorem keyLength (written : Written l keySize) : (preparedBuilder l).keyLength = keySize :=
  written.keyLengthV2_eq

theorem length_entryBytes (written : Written l keySize) {it : Info} (member : it ∈ l) :
    (entryBytes l it).length = keySize + (preparedBuilder l).entrySize := by
  have fits := preparedBuilder_fits written.limits member
  rw [entryBytes,List.length_append,written.keys it member,fits.take_valueBuffer]
  rcases fits.entrySize_cases with size | size | size | size <;> simp [size]

theorem entrySize_range (written : Written l keySize) :
    16 ≤ (preparedBuilder l).entrySize ∧ (preparedBuilder l).entrySize ≤ 19 := by
  obtain ⟨it,member⟩ := List.exists_mem_of_ne_nil l written.some
  exact (preparedBuilder_fits written.limits member).entrySize

theorem length_entriesSection (written : Written l keySize) :
    (entriesSection l).length = l.length * (keySize + (preparedBuilder l).entrySize) := by
  rw [entriesSection,length_flatten_uniform _ (keySize + (preparedBuilder l).entrySize)]
  · rw [List.length_map,Nat.mul_comm]
  · intro record member
    obtain ⟨it,inside,rfl⟩ := List.mem_map.mp member
    exact written.length_entryBytes inside

end Written

theorem length_packsSection : (packsSection l).length = (buildPackIDToIndexMap l).length * v2PackInfoSize := by
  rw [packsSection,length_flatten_uniform _ v2PackInfoSize]
  · rw [List.length_map,Nat.mul_comm]
  · intro record member
    obtain ⟨name,_,rfl⟩ := List.mem_map.mp member
    simp [IndexBuilderV2.writePackIDEntry,v2PackInfoSize]

theorem length_formatsSection :
    (formatsSection l).length = (buildUniqueFormatToIndexMap l).length * v2FormatInfoSize := by
  rw [formatsSection,length_flatten_uniform _ v2FormatInfoSize]
  · rw [List.length_map,Nat.mul_comm]
  · intro record member
    obtain ⟨f,_,rfl⟩ := List.mem_map.mp member
    simp [writeFormatInfoEntry,v2FormatInfoSize]

theorem length_header : (preparedBuilder l).header.length = v2IndexHeaderSize := by
  simp [IndexBuilderV2.header,v2IndexHeaderSize]

theorem Written.length_fileBytes (written : Written l keySize) : (fileBytes l).length =
    v2IndexHeaderSize + l.length * (keySize + (preparedBuilder l).entrySize)
      + (buildPackIDToIndexMap l).length * v2PackInfoSize
      + (buildUniqueFormatToIndexMap l).length * v2FormatInfoSize + (extraData l).length := by
  simp only [fileBytes,List.length_append,length_header,written.length_entriesSection,length_packsSection,
    length_formatsSection]

/-- No section offset wraps around in an index smaller than 2^32 bytes. -/
theorem Written.extraDataOffset (written : Written l keySize) (small : (fileBytes l).length < 2 ^ 32) :
    (preparedBuilder l).extraDataOffset + (extraData l).length = (fileBytes l).length := by
  have whole := written.length_fileBytes
  have product : (((limitedBuilder l).entryCount : Int) * ((limitedBuilder l).keyLength
      + (limitedBuilder l).entrySize)).toNat = l.length * (keySize + (preparedBuilder l).entrySize) := by
    rw [show (limitedBuilder l).keyLength = keySize from written.keyLength]
    show ((l.length : Int) * ((keySize : Int) + ((preparedBuilder l).entrySize : Int))).toNat = _
    rw [← Int.natCast_add,← Int.natCast_mul,Int.toNat_natCast]
  have offset : (preparedBuilder l).extraDataOffset = (v2IndexHeaderSize
      + l.length * (keySize + (preparedBuilder l).entrySize) % 2 ^ 32
      + (buildPackIDToIndexMap l).length * v2PackInfoSize % 2 ^ 32
      + (buildUniqueFormatToIndexMap l).length * v2FormatInfoSize % 2 ^ 32) % 2 ^ 32 := by
    rw [← product]
    rfl
  rw [whole] at small
  rw [offset,whole,Nat.mod_eq_of_lt (by omega : l.length * (keySize + (preparedBuilder l).entrySize) < 2 ^ 32),
    Nat.mod_eq_of_lt (by omega : (buildPackIDToIndexMap l).length * v2PackInfoSize < 2 ^ 32),
    Nat.mod_eq_of_lt (by omega : (buildUniqueFormatToIndexMap l).length * v2FormatInfoSize < 2 ^ 32),
    Nat.mod_eq_of_lt (by omega)]

theorem Written.writeIndexEntry_eq (written : Written l keySize) {it : Info} (member : it ∈ l) :
    (preparedBuilder l).writeIndexEntry it = .ok (entryBytes l it) := by
  rw [IndexBuilderV2.writeIndexEntry,(preparedBuilder_fits written.limits member).writeIndexValueEntry_eq]
  simp only [written.keys it member,written.keyLength,ne_eq,not_true,if_false,Except.map,entryBytes]

end File

section Build
variable {b : Builder} {keySize : Nat}

theorem buildV2_within (limits : WithinLimits b.sortedContents) : b.buildV2 =
    if keyLengthV2 b.sortedContents ≤ 1 then
      .error (.invalidKeyLength (keyLengthV2 b.sortedContents) b.infos.length)
    else (b.sortedContents.mapM (preparedBuilder b.sortedContents).writeIndexEntry).map fun entries =>
      (preparedBuilder b.sortedContents).header ++ entries.flatten ++ packsSection b.sortedContents
        ++ formatsSection b.sortedContents ++ extraData b.sortedContents := by
  rw [Builder.buildV2,newIndexBuilderV2_within limits]
  generalize b.sortedContents = l
  show (if keyLengthV2 l ≤ 1 then _ else _) = _
  split
  next => rfl
  next =>
    show Except.bind (l.mapM (preparedBuilder l).writeIndexEntry) _ = _
    cases l.mapM (preparedBuilder l).writeIndexEntry <;> rfl

theorem buildV2_written (written : Written b.sortedContents keySize) :
    b.buildV2 = .ok (fileBytes b.sortedContents) := by
  have long := written.long
  have keyLength := written.keyLengthV2_eq
  rw [buildV2_within written.limits,if_neg (by omega),
    mapM_ok fun it member => written.writeIndexEntry_eq member]
  rfl

end Build

section Open
variable {l : List Info} {keySize : Nat}

/-- The header that `buildV2` wrote, as it is read back. -/
def writtenHeader (l : List Info) (keySize : Nat) : V2HeaderInfo where
  version := 2
  keySize := keySize
  entrySize := (preparedBuilder l).entrySize
  entryCount := l.length
  packCount := (buildPackIDToIndexMap l).length
  formatCount := (buildUniqueFormatToIndexMap l).length
  baseTimestamp := 0
  entryStride := keySize + (preparedBuilder l).entrySize
  entriesOffset := v2IndexHeaderSize
  packsOffset := v2IndexHeaderSize + l.length * (keySize + (preparedBuilder l).entrySize)
  formatsOffset := v2IndexHeaderSize + l.length * (keySize + (preparedBuilder l).entrySize)
    + (buildPackIDToIndexMap l).length * v2PackInfoSize

theorem Written.entryCount_lt (written : Written l keySize) (small : (fileBytes l).length < 2 ^ 32) :
    l.length < 2 ^ 32 := by
  have whole := written.length_fileBytes
  have long := written.long
  have entries : l.length * 1 ≤ l.length * (keySize + (preparedBuilder l).entrySize) :=
    Nat.mul_le_mul_left _ (by omega)
  omega

theorem Written.readHeader_eq (written : Written l keySize) (small : (fileBytes l).length < 2 ^ 32) :
    readHeader (preparedBuilder l).header = writtenHeader l keySize := by
  have count := written.entryCount_lt small
  have size := written.entrySize_range
  have short := written.short
  have formats := written.limits.formats
  have packs := written.limits.packs
  simp only [v2MaxFormatCount,v2MaxUniquePackIDCount,maxHashSize] at formats packs short
  have keyByte : (UInt8.ofNat (preparedBuilder l).keyLength.toNat).toNat = keySize := by
    rw [written.keyLength,Int.toNat_natCast,UInt8.toNat_ofNat']
    omega
  have formatByte : (UInt8.ofNat (buildUniqueFormatToIndexMap l).length).toNat =
      (buildUniqueFormatToIndexMap l).length := by
    rw [UInt8.toNat_ofNat']
    omega
  have shape : (preparedBuilder l).header = Version2 :: UInt8.ofNat (preparedBuilder l).keyLength.toNat ::
      (toBigEndian 2 (preparedBuilder l).entrySize ++ (toBigEndian 4 l.length ++
        (toBigEndian 4 (buildPackIDToIndexMap l).length ++
          (UInt8.ofNat (buildUniqueFormatToIndexMap l).length :: toBigEndian 4 0)))) := by
    simp only [IndexBuilderV2.header,List.append_assoc,List.cons_append,List.nil_append]
    rfl
  have version : numberAt (preparedBuilder l).header 0 1 = Version2.toNat := numberAt_byte [] 0 _ shape rfl
  have key : numberAt (preparedBuilder l).header 1 1 = (UInt8.ofNat (preparedBuilder l).keyLength.toNat).toNat :=
    numberAt_byte [Version2] 1 _ shape rfl
  have entrySize : numberAt (preparedBuilder l).header 2 2 = (preparedBuilder l).entrySize % 256 ^ 2 :=
    numberAt_field [Version2,UInt8.ofNat (preparedBuilder l).keyLength.toNat] 2 2 _ (by rw [shape]; rfl) rfl
  have entryCount : numberAt (preparedBuilder l).header 4 4 = l.length % 256 ^ 4 :=
    numberAt_field ([Version2,UInt8.ofNat (preparedBuilder l).keyLength.toNat] ++
      toBigEndian 2 (preparedBuilder l).entrySize) 4 4 _ (by rw [shape,List.append_assoc]; rfl) (by simp)
  have packCount : numberAt (preparedBuilder l).header 8 4 = (buildPackIDToIndexMap l).length % 256 ^ 4 :=
    numberAt_field ([Version2,UInt8.ofNat (preparedBuilder l).keyLength.toNat] ++
      (toBigEndian 2 (preparedBuilder l).entrySize ++ toBigEndian 4 l.length)) 8 4 _
      (by rw [shape,List.append_assoc,List.append_assoc]; rfl) (by simp)
  have formatCount : numberAt (preparedBuilder l).header 12 1 =
      (UInt8.ofNat (buildUniqueFormatToIndexMap l).length).toNat :=
    numberAt_byte ([Version2,UInt8.ofNat (preparedBuilder l).keyLength.toNat] ++
      (toBigEndian 2 (preparedBuilder l).entrySize ++ (toBigEndian 4 l.length ++
        toBigEndian 4 (buildPackIDToIndexMap l).length))) 12 _
      (by rw [shape,List.append_assoc,List.append_assoc,List.append_assoc]; rfl) (by simp)
  have baseTimestamp : numberAt (preparedBuilder l).header 13 4 = 0 % 256 ^ 4 :=
    numberAt_field ([Version2,UInt8.ofNat (preparedBuilder l).keyLength.toNat] ++
      (toBigEndian 2 (preparedBuilder l).entrySize ++ (toBigEndian 4 l.length ++
        (toBigEndian 4 (buildPackIDToIndexMap l).length ++ [UInt8.ofNat (buildUniqueFormatToIndexMap l).length]))))
      13 4 0 (by rw [shape,List.append_nil]; simp) (by simp)
  rw [keyByte] at key
  rw [formatByte] at formatCount
  rw [Nat.mod_eq_of_lt (by omega)] at entrySize entryCount packCount baseTimestamp
  rw [readHeader,version,key,entrySize,entryCount,packCount,formatCount,baseTimestamp]
  rfl

/-- The file, with whatever follows it, seen as a header and nested tails. -/
theorem fileBytes_append (l : List Info) (trailing : Bytes) : fileBytes l ++ trailing =
    (preparedBuilder l).header ++ (entriesSection l ++ (packsSection l ++ (formatsSection l ++
      (extraData l ++ trailing)))) := by
  simp only [fileBytes,List.append_assoc]

theorem slice_entries (written : Written l keySize) (trailing : Bytes) {p : Nat} (inside : p < l.length) :
    slice (fileBytes l ++ trailing)
      (v2IndexHeaderSize + (keySize + (preparedBuilder l).entrySize) * p) (keySize + (preparedBuilder l).entrySize) =
        some (entryBytes l l[p]) := by
  rw [fileBytes_append,← length_header (l := l),slice_after]
  refine slice_append ?_ _
  rw [entriesSection,slice_flatten _ (keySize + (preparedBuilder l).entrySize) _ p (by simpa using inside)]
  · simp
  · intro record member
    obtain ⟨it,there,rfl⟩ := List.mem_map.mp member
    exact written.length_entryBytes there

theorem slice_packs (written : Written l keySize) (trailing : Bytes) {i : Nat}
    (inside : i < (buildPackIDToIndexMap l).length) :
    slice (fileBytes l ++ trailing) ((writtenHeader l keySize).packsOffset + v2PackInfoSize * i) v2PackInfoSize =
      some ((preparedBuilder l).writePackIDEntry (buildPackIDToIndexMap l)[i]) := by
  have offset : (writtenHeader l keySize).packsOffset + v2PackInfoSize * i =
      (preparedBuilder l).header.length + ((entriesSection l).length + v2PackInfoSize * i) := by
    rw [length_header,written.length_entriesSection]
    simp only [writtenHeader]
    omega
  rw [fileBytes_append,offset,slice_after,slice_after]
  refine slice_append ?_ _
  rw [packsSection,slice_flatten _ v2PackInfoSize _ i (by simpa using inside)]
  · simp
  · intro record member
    obtain ⟨name,_,rfl⟩ := List.mem_map.mp member
    simp [IndexBuilderV2.writePackIDEntry,v2PackInfoSize]

theorem slice_formats (written : Written l keySize) (trailing : Bytes) :
    slice (fileBytes l ++ trailing) (writtenHeader l keySize).formatsOffset
      ((buildUniqueFormatToIndexMap l).length * v2FormatInfoSize) = some (formatsSection l) := by
  have offset : (writtenHeader l keySize).formatsOffset =
      (preparedBuilder l).header.length + ((entriesSection l).length + ((packsSection l).length + 0)) := by
    rw [length_header,written.length_entriesSection,length_packsSection]
    simp only [writtenHeader]
    omega
  rw [fileBytes_append,offset,slice_after,slice_after,slice_after,← length_formatsSection]
  exact slice_middle [] (formatsSection l) _

theorem slice_extraData (written : Written l keySize) (small : (fileBytes l).length < 2 ^ 32) (trailing : Bytes)
    {off len : Nat} {part : Bytes} (found : slice (extraData l) off len = some part) :
    slice (fileBytes l ++ trailing) (off + (preparedBuilder l).extraDataOffset) len = some part := by
  have start : off + (preparedBuilder l).extraDataOffset = (preparedBuilder l).header.length
      + ((entriesSection l).length + ((packsSection l).length + ((formatsSection l).length + off))) := by
    have whole := written.length_fileBytes
    have last := written.extraDataOffset small
    rw [length_header,written.length_entriesSection,length_packsSection,length_formatsSection]
    omega
  rw [fileBytes_append,start,slice_after,slice_after,slice_after,slice_after]
  exact slice_append found trailing

theorem parseFormat_formatsSection {i : Nat} (inside : i < (buildUniqueFormatToIndexMap l).length) :
    parseFormat (formatsSection l) i = (buildUniqueFormatToIndexMap l)[i] := by
  have found := slice_flatten ((buildUniqueFormatToIndexMap l).map writeFormatInfoEntry) v2FormatInfoSize (by
    intro record member
    obtain ⟨f,_,rfl⟩ := List.mem_map.mp member
    simp [writeFormatInfoEntry,v2FormatInfoSize]) i (by simpa using inside)
  rw [List.getElem_map] at found
  obtain ⟨before,after,shape,position⟩ := slice_split found
  have rest : (formatsSection l).drop (v2FormatInfoSize * i) =
      writeFormatInfoEntry (buildUniqueFormatToIndexMap l)[i] ++ after := by
    rw [formatsSection,shape,← position,List.drop_left' rfl]
  generalize (buildUniqueFormatToIndexMap l)[i] = f at rest
  have compression : numberAt (writeFormatInfoEntry f ++ after) 0 4 = f.compressionHeaderID.toNat % 256 ^ 4 :=
    numberAt_field [] 0 4 _ (by rw [writeFormatInfoEntry,List.append_assoc]; rfl) rfl
  have version : numberAt (writeFormatInfoEntry f ++ after) 4 1 = f.formatVersion.toNat :=
    numberAt_byte (toBigEndian 4 f.compressionHeaderID.toNat) 4 _
      (by rw [writeFormatInfoEntry,List.append_assoc]; rfl) (by simp)
  have encryption : numberAt (writeFormatInfoEntry f ++ after) 5 1 = f.encryptionKeyID.toNat :=
    numberAt_byte (toBigEndian 4 f.compressionHeaderID.toNat ++ [f.formatVersion]) 5 _
      (by rw [writeFormatInfoEntry,List.append_assoc,List.append_assoc]; rfl) (by simp)
  have bound := f.compressionHeaderID.toNat_lt
  rw [Nat.mod_eq_of_lt (by omega)] at compression
  simp only [parseFormat,rest]
  rw [compression,version,encryption,UInt32.ofNat_toNat,UInt8.ofNat_toNat,UInt8.ofNat_toNat]

theorem parseFormatsBuffer_formatsSection : parseFormatsBuffer (formatsSection l)
    (buildUniqueFormatToIndexMap l).length = buildUniqueFormatToIndexMap l := by
  apply List.ext_getElem
  · simp [parseFormatsBuffer]
  · intro i _ inside
    simp only [parseFormatsBuffer,List.getElem_map,List.getElem_range]
    exact parseFormat_formatsSection inside

theorem preparedBuilder_names (l : List Info) : NamesAt (preparedBuilder l).packBlobIDOffsets (extraData l) ∧
    ∀ name, name ≠ [] → name ∈ l.map Info.packBlobID →
      (preparedBuilder l).packBlobIDOffsets.lookup name ≠ none := by
  obtain ⟨names,noted⟩ := foldl_appendPackName l ([],[]) (fun name off found => by simp at found)
  exact ⟨names,fun name named member => noted name named (Or.inr member)⟩

theorem readPackID_of {data buf : Bytes} {packsOffset i : Nat} {name : BlobID}
    (entry : slice data (packsOffset + v2PackInfoSize * i) v2PackInfoSize = some buf)
    (found : slice data (numberAt buf 1 4) (numberAt buf 0 1) = some name) :
    readPackID data packsOffset i = .ok name := by
  simp only [readPackID,entry,found]

/-- Every pack name is read back through its table entry. -/
theorem readPackID_eq (written : Written l keySize) (small : (fileBytes l).length < 2 ^ 32)
    (names : ∀ it ∈ l, it.packBlobID.length ≤ 255) (trailing : Bytes) {i : Nat}
    (inside : i < (buildPackIDToIndexMap l).length) :
    readPackID (fileBytes l ++ trailing) (writtenHeader l keySize).packsOffset i =
      .ok (buildPackIDToIndexMap l)[i] := by
  obtain ⟨placed,noted⟩ := preparedBuilder_names l
  have member : (buildPackIDToIndexMap l)[i] ∈ l.map Info.packBlobID :=
    mem_distinct.mp (List.getElem_mem inside)
  have length : (buildPackIDToIndexMap l)[i].length ≤ 255 := by
    obtain ⟨it,there,same⟩ := List.mem_map.mp member
    exact same ▸ names it there
  have whole := written.extraDataOffset small
  refine readPackID_of (slice_packs written trailing inside) ?_
  generalize (buildPackIDToIndexMap l)[i] = name at member length
  have found : slice (extraData l) (((preparedBuilder l).packBlobIDOffsets.lookup name).getD 0) name.length =
      some name := by
    cases place : (preparedBuilder l).packBlobIDOffsets.lookup name with
    | some off => exact placed name off place (by omega)
    | none =>
      have empty : name = [] := by
        by_contra named
        exact noted name named member place
      subst empty
      simp [slice]
  have bound := slice_inside found
  have size : numberAt ((preparedBuilder l).writePackIDEntry name) 0 1 = (UInt8.ofNat name.length).toNat :=
    numberAt_byte [] 0 _ rfl rfl
  have place : numberAt ((preparedBuilder l).writePackIDEntry name) 1 4 =
      (((preparedBuilder l).packBlobIDOffsets.lookup name).getD 0 + (preparedBuilder l).extraDataOffset) % 256 ^ 4 :=
    numberAt_field [UInt8.ofNat name.length] 1 4 _ (by rw [List.append_nil]; rfl) rfl
  rw [UInt8.toNat_ofNat',Nat.mod_eq_of_lt (by omega)] at size
  rw [Nat.mod_eq_of_lt (by omega)] at place
  rw [size,place]
  exact slice_extraData written small trailing found

theorem readPackIDs_eq (written : Written l keySize) (small : (fileBytes l).length < 2 ^ 32)
    (names : ∀ it ∈ l, it.packBlobID.length ≤ 255) (trailing : Bytes) :
    (List.range (buildPackIDToIndexMap l).length).mapM
      (readPackID (fileBytes l ++ trailing) (writtenHeader l keySize).packsOffset) =
        .ok (buildPackIDToIndexMap l) := by
  rw [mapM_ok (g := fun i => (buildPackIDToIndexMap l).getD i []) ?_]
  · congr 1
    apply List.ext_getElem
    · simp
    · intro i _ inside
      simp [inside]
  · intro i member
    have inside := List.mem_range.mp member
    rw [readPackID_eq written small names trailing inside]
    simp [inside]

theorem openV2PackIndex_eq (written : Written l keySize) (small : (fileBytes l).length < 2 ^ 32)
    (names : ∀ it ∈ l, it.packBlobID.length ≤ 255) (trailing : Bytes) :
    openV2PackIndex (fileBytes l ++ trailing) = .ok ⟨writtenHeader l keySize,fileBytes l ++ trailing,
      buildUniqueFormatToIndexMap l,buildPackIDToIndexMap l⟩ := by
  have header : slice (fileBytes l ++ trailing) 0 v2IndexHeaderSize = some (preparedBuilder l).header := by
    rw [fileBytes_append,← length_header (l := l)]
    exact slice_middle [] (preparedBuilder l).header _
  have size := written.entrySize_range
  have long := written.long
  have short := written.short
  have formats := written.limits.formats
  simp only [maxHashSize] at short
  have accepted : ¬ ((writtenHeader l keySize).keySize ≤ 1 ∨ (writtenHeader l keySize).entrySize < v2EntryMinLength
      ∨ (writtenHeader l keySize).entrySize > v2EntryMaxLength
      ∨ (writtenHeader l keySize).formatCount > v2MaxFormatCount) := by
    simp only [writtenHeader,v2EntryMinLength,v2EntryMaxLength]
    omega
  have narrow : ¬ (writtenHeader l keySize).entryStride > v2MaxEntrySize := by
    simp only [writtenHeader,v2MaxEntrySize]
    omega
  have formatTable : slice (fileBytes l ++ trailing) (writtenHeader l keySize).formatsOffset
      ((writtenHeader l keySize).formatCount * v2FormatInfoSize) = some (formatsSection l) :=
    slice_formats written trailing
  have packTable : (List.range (writtenHeader l keySize).packCount).mapM
      (readPackID (fileBytes l ++ trailing) (writtenHeader l keySize).packsOffset) =
        .ok (buildPackIDToIndexMap l) := readPackIDs_eq written small names trailing
  have parsed : parseFormatsBuffer (formatsSection l) (writtenHeader l keySize).formatCount =
      buildUniqueFormatToIndexMap l := parseFormatsBuffer_formatsSection
  simp only [openV2PackIndex,header,written.readHeader_eq small,if_neg accepted,if_neg narrow,formatTable,packTable,
    parsed]
  rfl

/-- What the reader opens represents what the builder held. -/
theorem opened_represents (written : Written l keySize)
    (times : ∀ it ∈ l, 0 ≤ it.timestampSeconds ∧ it.timestampSeconds < 2 ^ 32) (trailing : Bytes) :
    IndexV2.Represents ⟨writtenHeader l keySize,fileBytes l ++ trailing,buildUniqueFormatToIndexMap l,
      buildPackIDToIndexMap l⟩ l where
  entryCount := rfl
  keySize := written.keys
  known := by
    have short := written.short
    simp only [maxHashSize] at short
    simp only [writtenHeader,unknownKeySize]
    omega
  stride := by
    simp only [writtenHeader]
    omega
  entry := by
    intro p inside
    have member := List.getElem_mem inside
    exact ⟨_,slice_entries written trailing inside,
      (preparedBuilder_fits written.limits member).entryToInfoStruct_eq ⟨rfl,rfl,rfl,rfl⟩
        (times _ member).1 (times _ member).2⟩

end Open

section RoundTrip
variable {b : Builder}

/-- The entries an index cannot hold: none at all, keys of different lengths, too
many formats or packs, and numbers that do not fit their fields. -/
def Builder.Unencodable (b : Builder) : Prop :=
  b.infos = [] ∨
  (∃ i ∈ b.infos, ∃ j ∈ b.infos, (contentIDToBytes i.contentID).length ≠ (contentIDToBytes j.contentID).length) ∨
  255 < (b.infos.map indexV2FormatInfoFromInfo).toFinset.card ∨
  2 ^ 24 < (b.infos.map Info.packBlobID).toFinset.card ∨
  ∃ i ∈ b.infos, 2 ^ 28 ≤ i.packedLength.toNat ∨ 2 ^ 28 ≤ i.originalLength.toNat ∨ 2 ^ 30 ≤ i.packOffset.toNat

theorem toFinset_map_sortedContents {α : Type} [DecidableEq α] (f : Info → α) :
    (b.sortedContents.map f).toFinset = (b.infos.map f).toFinset := by
  ext x
  simp [mem_sortedContents]

theorem withinLimits_iff : WithinLimits b.sortedContents ↔
    (b.infos.map indexV2FormatInfoFromInfo).toFinset.card ≤ 255 ∧
    (b.infos.map Info.packBlobID).toFinset.card ≤ 2 ^ 24 ∧
    ∀ i ∈ b.infos, i.packedLength.toNat < 2 ^ 28 ∧ i.originalLength.toNat < 2 ^ 28 ∧ i.packOffset.toNat < 2 ^ 30 := by
  have formats : (buildUniqueFormatToIndexMap b.sortedContents).length =
      (b.infos.map indexV2FormatInfoFromInfo).toFinset.card := by
    rw [buildUniqueFormatToIndexMap,length_distinct,toFinset_map_sortedContents]
  have packs : (buildPackIDToIndexMap b.sortedContents).length = (b.infos.map Info.packBlobID).toFinset.card := by
    rw [buildPackIDToIndexMap,length_distinct,toFinset_map_sortedContents]
  rw [← formats,← packs]
  constructor
  · exact fun limits => ⟨limits.formats,limits.packs,fun i member =>
      ⟨limits.packed i (mem_sortedContents.mpr member),limits.original i (mem_sortedContents.mpr member),
        limits.offset i (mem_sortedContents.mpr member)⟩⟩
  · rintro ⟨few,fewPacks,fields⟩
    exact ⟨few,fewPacks,fun i member => (fields i (mem_sortedContents.mp member)).1,
      fun i member => (fields i (mem_sortedContents.mp member)).2.1,
      fun i member => (fields i (mem_sortedContents.mp member)).2.2⟩

theorem written_of_encodable (valid : ∀ i ∈ b.infos, i.contentID.Valid) (encodable : ¬ b.Unencodable) : ∃ keySize, Written b.sortedContents keySize := by
  simp only [Builder.Unencodable,not_or,not_exists,not_and,not_lt,not_not,not_le] at encodable
  obtain ⟨some,keys,formats,packs,fields⟩ := encodable
  obtain ⟨first,member⟩ := List.exists_mem_of_ne_nil _ some
  have key := valid first member
  have length : (contentIDToBytes first.contentID).length = first.contentID.data.length + 1 := rfl
  have bounds := key.2
  refine ⟨(contentIDToBytes first.contentID).length,withinLimits_iff.mpr ⟨formats,packs,fields⟩,?_,?_,by omega,by omega⟩
  · exact List.ne_nil_of_mem (mem_sortedContents.mpr member)
  · exact fun it there => keys it (mem_sortedContents.mp there) first member

theorem buildV2_unencodable (unencodable : b.Unencodable) :
    ∃ e, b.buildV2 = .error e ∧ ∀ buf n, e ≠ .encodingBug buf n := by
  by_cases limits : WithinLimits b.sortedContents
  · rw [buildV2_within limits]
    split
    next => exact ⟨_,rfl,fun _ _ => by simp⟩
    next long =>
      obtain ⟨first,rest,shape⟩ : ∃ first rest, b.sortedContents = first :: rest := by
        cases empty : b.sortedContents with
        | nil => simp [empty,keyLengthV2] at long
        | cons first rest => exact ⟨first,rest,rfl⟩
      have differs : ∃ i ∈ b.sortedContents,
          (contentIDToBytes i.contentID).length ≠ (contentIDToBytes first.contentID).length := by
        by_contra same
        simp only [not_exists,not_and,not_not] at same
        obtain ⟨formats,packs,fields⟩ := withinLimits_iff.mp limits
        rcases unencodable with none | ⟨i,hi,j,hj,other⟩ | many | many | ⟨i,hi,large⟩
        · have member : first ∈ b.infos := mem_sortedContents.mp (by rw [shape]; simp)
          simp [none] at member
        · exact other ((same i (mem_sortedContents.mpr hi)).trans (same j (mem_sortedContents.mpr hj)).symm)
        · omega
        · omega
        · have := fields i hi
          omega
      have keyLength : (preparedBuilder b.sortedContents).keyLength =
          ((contentIDToBytes first.contentID).length : Int) := by
        show keyLengthV2 b.sortedContents = _
        rw [shape]
        rfl
      have outcome : ∀ i ∈ b.sortedContents, ∀ e,
          (preparedBuilder b.sortedContents).writeIndexEntry i = .error e → ∀ buf n, e ≠ .encodingBug buf n := by
        intro i member e failed buf n
        rw [IndexBuilderV2.writeIndexEntry,(preparedBuilder_fits limits member).writeIndexValueEntry_eq] at failed
        split at failed
        · cases Except.error.inj failed
          simp
        · contradiction
      obtain ⟨i,member,other⟩ := differs
      obtain ⟨j,there,e,failed,whole⟩ := mapM_error (f := (preparedBuilder b.sortedContents).writeIndexEntry)
        ⟨i,member,_,by
          rw [IndexBuilderV2.writeIndexEntry,if_pos (by rw [keyLength]; exact_mod_cast other)]⟩
      exact ⟨e,by rw [whole]; rfl,outcome j there e failed⟩
  · obtain ⟨e,failed,other⟩ := newIndexBuilderV2_beyond limits
    exact ⟨e,by rw [Builder.buildV2,failed]; rfl,other⟩

/-- `buildV2` refuses exactly what the format cannot hold, and anything else is
read back from its output as it was, whatever follows the output. -/
theorem buildV2_roundTrip (valid : ∀ i ∈ b.infos, i.contentID.Valid)
    (times : ∀ i ∈ b.infos, 0 ≤ i.timestampSeconds ∧ i.timestampSeconds < 2 ^ 32)
    (names : ∀ i ∈ b.infos, i.packBlobID.length ≤ 255)
    (small : ∀ out, b.buildV2 = .ok out → out.length < 2 ^ 32) :
    (∀ buf entrySize, b.buildV2 ≠ .error (.encodingBug buf entrySize)) ∧
    ((∃ e, b.buildV2 = .error e) ↔ b.Unencodable) ∧
    ∀ out, b.buildV2 = .ok out → ∀ trailing, ∃ ndx, openV2PackIndex (out ++ trailing) = .ok ndx ∧
      (∀ id : ID, (∀ i ∈ b.infos, (contentIDToBytes i.contentID).length = (contentIDToBytes id).length) →
        ndx.GetInfo id = .ok (b.get? id)) ∧
      (∀ id : ID, ¬ (∀ i ∈ b.infos, (contentIDToBytes i.contentID).length = (contentIDToBytes id).length) →
        ∃ e, ndx.GetInfo id = .error e) ∧
      ∀ r : IDRange, ∃ entries, ndx.Iterate r = (entries,none) ∧
        (entries.Pairwise fun i j => i.contentID.less j.contentID) ∧
        ∀ i, i ∈ entries ↔ i ∈ b.infos ∧ r.Contains i.contentID := by
  by_cases unencodable : b.Unencodable
  · obtain ⟨e,failed,other⟩ := buildV2_unencodable unencodable
    rw [failed]
    refine ⟨fun buf n same => other buf n (Except.error.inj same),iff_of_true ⟨e,rfl⟩ unencodable,?_⟩
    intro out done
    contradiction
  · obtain ⟨keySize,written⟩ := written_of_encodable valid unencodable
    have done := buildV2_written written
    have fits := small _ done
    rw [done]
    refine ⟨by simp,iff_of_false (by simp) unencodable,?_⟩
    intro out same trailing
    cases Except.ok.inj same
    have inside : ∀ i ∈ b.sortedContents, i ∈ b.infos := fun i => mem_sortedContents.mp
    have sorted := pairwise_sortedContents valid
    have represents := opened_represents written (fun i member => times i (inside i member)) trailing
    have entries := represents.table
    have ids := fun i member => valid i (inside i member)
    refine ⟨_,openV2PackIndex_eq written fits (fun i member => names i (inside i member)) trailing,?_,?_,?_⟩
    · intro id lengths
      rw [IndexV2.GetInfo_table,b.get?_eq_find? sorted (fun i => mem_sortedContents)]
      exact (entries.toValid ids sorted written.some).finds id fun i member => lengths i (inside i member)
    · intro id lengths
      refine (entries.toValid ids sorted written.some).refuses id fun same => lengths fun i member => ?_
      exact same i (mem_sortedContents.mpr member)
    · intro r
      refine ⟨_,(IndexV2.Iterate_table _ r).trans (entries.Iterate_eq ids sorted r),?_,?_⟩
      · exact (sorted.filter _).imp ID.less_iff.mpr
      · intro i
        rw [List.mem_filter,mem_sortedContents]

def deletedInfo : Info where
  packBlobID := [112,49]
  timestampSeconds := 1700000000
  originalLength := 5
  packedLength := 7
  packOffset := 3
  compressionHeaderID := 0
  contentID := ⟨0,[1]⟩
  deleted := true
  formatVersion := 2
  encryptionKeyID := 0

theorem deletedInfo_sorted : (Builder.empty.set deletedInfo).sortedContents = [deletedInfo] :=
  List.perm_singleton.mp (sortedContents_perm (b := Builder.empty.set deletedInfo) (by decide))

theorem deletedInfo_built : (Builder.empty.set deletedInfo).buildV2 = .ok (fileBytes [deletedInfo]) := by
  rw [← deletedInfo_sorted]
  refine buildV2_written (?_ : Written _ 2)
  rw [deletedInfo_sorted]
  exact ⟨⟨by decide,by decide,by decide,by decide,by decide⟩,by decide,by decide,by decide,by decide⟩

theorem buildV2_roundTrip_deletedInfo : ∃ ndx, openV2PackIndex (fileBytes [deletedInfo] ++ [7]) = .ok ndx ∧
    ndx.GetInfo deletedInfo.contentID = .ok (some deletedInfo) := by
  obtain ⟨_,_,roundTrip⟩ := buildV2_roundTrip (b := Builder.empty.set deletedInfo) (by decide) (by decide)
    (by decide) (by
      intro out done
      rw [deletedInfo_built] at done
      cases Except.ok.inj done
      decide)
  obtain ⟨ndx,opened,lookup,_⟩ := roundTrip _ deletedInfo_built [7]
  exact ⟨ndx,opened,lookup deletedInfo.contentID (by decide)⟩

end RoundTrip

end Vbe.Index
