import Vbe.Index.Version2

/-! One entry of a version 2 index. Optional bytes are left out only where they
are zero, whatever the entry size, and the bytes that remain decode to the entry
they were written for. -/
namespace Vbe.Index
open Vbe.Library.Bytes

section Fields

theorem numberAt_field {data after : Bytes} (before : Bytes) (off width n : Nat)
    (shape : data = before ++ (toBigEndian width n ++ after)) (position : before.length = off) :
    numberAt data off width = n % 256 ^ width := by
  subst position
  rw [shape,numberAt,List.drop_left',List.take_append_of_le_length (by simp),
    List.take_of_length_le (by simp),ofBigEndian_toBigEndian]
  rfl

theorem numberAt_byte {data after : Bytes} (before : Bytes) (off : Nat) (x : UInt8)
    (shape : data = before ++ (x :: after)) (position : before.length = off) :
    numberAt data off 1 = x.toNat := by
  subst position
  rw [shape,numberAt,List.drop_left' rfl]
  simp [ofBigEndian]

theorem toBigEndian_cons (width n : Nat) :
    toBigEndian (width + 1) n = UInt8.ofNat (n / 256 ^ width) :: toBigEndian width n := rfl

theorem maxOf_lt {field : Info → UInt32} {l : List Info} {bound : Nat} (positive : 0 < bound) :
    maxOf field l < bound ↔ ∀ v ∈ l, (field v).toNat < bound := by
  have general : ∀ start, l.foldl (fun most v => max most (field v).toNat) start < bound ↔
      start < bound ∧ ∀ v ∈ l, (field v).toNat < bound := by
    induction l with
    | nil => simp
    | cons v l ih =>
      intro start
      rw [List.foldl_cons,ih]
      simp only [List.mem_cons,forall_eq_or_imp,max_lt_iff]
      tauto
  rw [maxOf,general]
  simp [positive]

/-- A number is put together from its bits above and below a position. -/
theorem or_shift_eq (n k : Nat) : n % 2 ^ k ||| (n >>> k) <<< k = n := by
  rw [Nat.or_comm,← Nat.shiftLeft_add_eq_or_of_lt (Nat.mod_lt _ (Nat.two_pow_pos k)),Nat.shiftLeft_eq,
    Nat.shiftRight_eq_div_pow]
  exact Nat.div_add_mod' n (2 ^ k)

end Fields

section Entry

/-- What `newIndexBuilderV2` has checked about an entry when it reaches
`writeIndexValueEntry`: the entry's table numbers exist, its numbers fit their
fields, and the optional bytes it needs are part of the entries. -/
structure IndexBuilderV2.Fits (b : IndexBuilderV2) (it : Info) : Prop where
  formats : b.uniqueFormatInfo2Index.length ≤ v2MaxFormatCount
  packs : b.packID2Index.length ≤ v2MaxUniquePackIDCount
  format : indexV2FormatInfoFromInfo it ∈ b.uniqueFormatInfo2Index
  pack : it.packBlobID ∈ b.packID2Index
  packed : it.packedLength.toNat < v2MaxContentLength
  original : it.originalLength.toNat < v2MaxContentLength
  offset : it.packOffset.toNat < v2MaxPackOffset
  base : b.baseTimestamp = 0
  entrySize : v2EntryMinLength ≤ b.entrySize ∧ b.entrySize ≤ v2EntryMaxLength
  formatKept : 1 < b.uniqueFormatInfo2Index.length → v2EntryOffsetFormatID < b.entrySize
  packKept : v2MaxShortPackIDCount < b.packID2Index.length → v2EntryOffsetExtendedPackBlobID < b.entrySize
  highKept : v2MaxShortContentLength ≤ it.packedLength.toNat ∨ v2MaxShortContentLength ≤ it.originalLength.toNat →
    v2EntryOffsetHighLengthBits < b.entrySize

namespace IndexBuilderV2
variable {b : IndexBuilderV2} {it : Info}

def timeField (b : IndexBuilderV2) (it : Info) : Bytes :=
  toBigEndian 4 ((it.timestampSeconds - b.baseTimestamp) % 2 ^ 32).toNat

def offsetAndFlags (it : Info) : Nat :=
  if it.deleted then it.packOffset.toNat ||| v2DeletedMarker else it.packOffset.toNat

/-- The bytes every entry has. -/
def valueBase (b : IndexBuilderV2) (it : Info) : Bytes :=
  b.timeField it ++ (toBigEndian 4 (offsetAndFlags it) ++ (toBigEndian 3 it.originalLength.toNat ++
    (toBigEndian 3 it.packedLength.toNat ++ toBigEndian 2 (b.packID2Index.idxOf it.packBlobID))))

def formatByte (b : IndexBuilderV2) (it : Info) : UInt8 :=
  UInt8.ofNat (b.uniqueFormatInfo2Index.idxOf (indexV2FormatInfoFromInfo it))

def packByte (b : IndexBuilderV2) (it : Info) : UInt8 :=
  UInt8.ofNat (b.packID2Index.idxOf it.packBlobID >>> 16)

def highByte (it : Info) : UInt8 :=
  UInt8.ofNat (it.packedLength.toNat >>> 24) ||| UInt8.ofNat ((it.originalLength.toNat >>> 24) <<< 4)

theorem valueBuffer_eq : b.valueBuffer it = b.valueBase it ++ [b.formatByte it,b.packByte it,highByte it] := by
  unfold valueBase
  simp only [List.append_assoc]
  rfl

@[simp] theorem length_timeField : (b.timeField it).length = 4 := length_toBigEndian _ _

@[simp] theorem length_valueBase : (b.valueBase it).length = 16 := by simp [valueBase]

namespace Fits

theorem formatByte_toNat (fits : b.Fits it) : (b.formatByte it).toNat =
    b.uniqueFormatInfo2Index.idxOf (indexV2FormatInfoFromInfo it) := by
  have inside := List.idxOf_lt_length_iff.mpr fits.format
  have few := fits.formats
  simp only [v2MaxFormatCount] at few
  simp only [IndexBuilderV2.formatByte,UInt8.toNat_ofNat']
  omega

theorem packIndex_lt (fits : b.Fits it) : b.packID2Index.idxOf it.packBlobID < 2 ^ 24 := by
  have inside := List.idxOf_lt_length_iff.mpr fits.pack
  have few := fits.packs
  simp only [v2MaxUniquePackIDCount] at few
  omega

theorem packByte_toNat (fits : b.Fits it) : (b.packByte it).toNat =
    b.packID2Index.idxOf it.packBlobID >>> 16 := by
  have bound := fits.packIndex_lt
  simp only [IndexBuilderV2.packByte,UInt8.toNat_ofNat',Nat.shiftRight_eq_div_pow]
  omega

theorem highByte_toNat (fits : b.Fits it) : (highByte it).toNat =
    it.packedLength.toNat >>> 24 + (it.originalLength.toNat >>> 24) * 16 := by
  have packed := fits.packed
  have original := fits.original
  simp only [v2MaxContentLength] at packed original
  have low : it.packedLength.toNat >>> 24 < 2 ^ 4 := by rw [Nat.shiftRight_eq_div_pow]; omega
  have high : it.originalLength.toNat >>> 24 < 16 := by rw [Nat.shiftRight_eq_div_pow]; omega
  have joined : it.packedLength.toNat >>> 24 ||| (it.originalLength.toNat >>> 24) <<< 4 =
      it.packedLength.toNat >>> 24 + (it.originalLength.toNat >>> 24) * 16 := by
    rw [Nat.or_comm,← Nat.shiftLeft_add_eq_or_of_lt low,Nat.shiftLeft_eq]
    omega
  rw [highByte,UInt8.toNat_or,UInt8.toNat_ofNat',UInt8.toNat_ofNat',
    Nat.mod_eq_of_lt (by omega),Nat.mod_eq_of_lt (by rw [Nat.shiftLeft_eq]; omega),joined]

theorem formatByte_zero (fits : b.Fits it) (short : b.entrySize ≤ v2EntryOffsetFormatID) :
    b.formatByte it = 0 := by
  have inside := List.idxOf_lt_length_iff.mpr fits.format
  have one : ¬ 1 < b.uniqueFormatInfo2Index.length := fun more => absurd (fits.formatKept more) (by omega)
  apply UInt8.toNat_inj.mp
  rw [fits.formatByte_toNat]
  show _ = 0
  omega

theorem packByte_zero (fits : b.Fits it) (short : b.entrySize ≤ v2EntryOffsetExtendedPackBlobID) :
    b.packByte it = 0 := by
  have inside := List.idxOf_lt_length_iff.mpr fits.pack
  have few : ¬ v2MaxShortPackIDCount < b.packID2Index.length :=
    fun more => absurd (fits.packKept more) (by omega)
  simp only [v2MaxShortPackIDCount] at few
  apply UInt8.toNat_inj.mp
  rw [fits.packByte_toNat,Nat.shiftRight_eq_div_pow]
  show _ = 0
  omega

theorem highByte_zero (fits : b.Fits it) (short : b.entrySize ≤ v2EntryOffsetHighLengthBits) :
    highByte it = 0 := by
  have small : ¬ (v2MaxShortContentLength ≤ it.packedLength.toNat ∨
      v2MaxShortContentLength ≤ it.originalLength.toNat) :=
    fun more => absurd (fits.highKept more) (by omega)
  simp only [v2MaxShortContentLength] at small
  apply UInt8.toNat_inj.mp
  rw [fits.highByte_toNat,Nat.shiftRight_eq_div_pow,Nat.shiftRight_eq_div_pow]
  show _ = 0
  omega

theorem entrySize_cases (fits : b.Fits it) :
    b.entrySize = 16 ∨ b.entrySize = 17 ∨ b.entrySize = 18 ∨ b.entrySize = 19 := by
  have range := fits.entrySize
  simp only [v2EntryMinLength,v2EntryMaxLength] at range
  omega

/-- The optional bytes an entry keeps. -/
theorem take_valueBuffer (fits : b.Fits it) : (b.valueBuffer it).take b.entrySize =
    b.valueBase it ++ [b.formatByte it,b.packByte it,highByte it].take (b.entrySize - 16) := by
  have range := fits.entrySize
  simp only [v2EntryMinLength] at range
  rw [valueBuffer_eq,List.take_append,List.take_of_length_le (by simp; omega)]
  simp

/-- The bytes that are cut off are zero, so an entry is never refused. -/
theorem writeIndexValueEntry_eq (fits : b.Fits it) :
    b.writeIndexValueEntry it = .ok ((b.valueBuffer it).take b.entrySize) := by
  have clear : (b.valueBuffer it).drop b.entrySize = List.replicate (19 - b.entrySize) 0 := by
    rw [valueBuffer_eq]
    rcases fits.entrySize_cases with size | size | size | size
    · rw [fits.formatByte_zero (by simp [size,v2EntryOffsetFormatID]),
        fits.packByte_zero (by simp [size,v2EntryOffsetExtendedPackBlobID]),
        fits.highByte_zero (by simp [size,v2EntryOffsetHighLengthBits]),size,List.drop_left' (by simp)]
      rfl
    · rw [fits.packByte_zero (by simp [size,v2EntryOffsetExtendedPackBlobID]),
        fits.highByte_zero (by simp [size,v2EntryOffsetHighLengthBits]),size,List.drop_append]
      simp
    · rw [fits.highByte_zero (by simp [size,v2EntryOffsetHighLengthBits]),size,List.drop_append]
      simp
    · rw [size,List.drop_eq_nil_of_le (by simp)]
      rfl
  have none : ((b.valueBuffer it).drop b.entrySize).any (· != 0) = false := by
    rw [clear,List.any_eq_false]
    intro x member
    simp [List.eq_of_mem_replicate member]
  simp [writeIndexValueEntry,none]

theorem optional_cases (fits : b.Fits it) :
    (b.valueBuffer it).take b.entrySize = b.valueBase it ∧ b.formatByte it = 0 ∧ b.packByte it = 0 ∧ highByte it = 0 ∨
    (b.valueBuffer it).take b.entrySize = b.valueBase it ++ [b.formatByte it] ∧ b.packByte it = 0 ∧ highByte it = 0 ∨
    (b.valueBuffer it).take b.entrySize = b.valueBase it ++ [b.formatByte it,b.packByte it] ∧ highByte it = 0 ∨
    (b.valueBuffer it).take b.entrySize = b.valueBase it ++ [b.formatByte it,b.packByte it,highByte it] := by
  have kept := fits.take_valueBuffer
  rcases fits.entrySize_cases with size | size | size | size
  · refine Or.inl ⟨?_,fits.formatByte_zero ?_,fits.packByte_zero ?_,fits.highByte_zero ?_⟩
    · simpa [size] using kept
    all_goals simp [size,v2EntryOffsetFormatID,v2EntryOffsetExtendedPackBlobID,v2EntryOffsetHighLengthBits]
  · refine Or.inr (Or.inl ⟨?_,fits.packByte_zero ?_,fits.highByte_zero ?_⟩)
    · simpa [size] using kept
    all_goals simp [size,v2EntryOffsetExtendedPackBlobID,v2EntryOffsetHighLengthBits]
  · refine Or.inr (Or.inr (Or.inl ⟨?_,fits.highByte_zero ?_⟩))
    · simpa [size] using kept
    · simp [size,v2EntryOffsetHighLengthBits]
  · refine Or.inr (Or.inr (Or.inr ?_))
    simpa [size] using kept

theorem formatIDIndex_eq (fits : b.Fits it) :
    IndexV2.formatIDIndex ((b.valueBuffer it).take b.entrySize) =
      b.uniqueFormatInfo2Index.idxOf (indexV2FormatInfoFromInfo it) := by
  rw [← fits.formatByte_toNat]
  rcases fits.optional_cases with ⟨kept,zero,_⟩ | ⟨kept,_⟩ | ⟨kept,_⟩ | kept
  · simp [kept,zero,IndexV2.formatIDIndex,v2EntryOffsetFormatID]
  all_goals
    rw [kept,IndexV2.formatIDIndex,if_pos (by simp [v2EntryOffsetFormatID])]
    exact numberAt_byte _ _ _ rfl length_valueBase

theorem highLengthBits_eq (fits : b.Fits it) :
    IndexV2.highLengthBits ((b.valueBuffer it).take b.entrySize) = (highByte it).toNat := by
  rcases fits.optional_cases with ⟨kept,_,_,zero⟩ | ⟨kept,_,zero⟩ | ⟨kept,zero⟩ | kept
  · simp [kept,zero,IndexV2.highLengthBits,v2EntryOffsetHighLengthBits]
  · simp [kept,zero,IndexV2.highLengthBits,v2EntryOffsetHighLengthBits]
  · simp [kept,zero,IndexV2.highLengthBits,v2EntryOffsetHighLengthBits]
  · rw [kept,IndexV2.highLengthBits,if_pos (by simp [v2EntryOffsetHighLengthBits])]
    exact numberAt_byte (b.valueBase it ++ [b.formatByte it,b.packByte it]) _ _ (by simp; rfl)
      (by simp [v2EntryOffsetHighLengthBits])

/-- A field of the bytes that every entry has is where it is in the whole entry. -/
theorem numberAt_value (fits : b.Fits it) {after : Bytes} (before : Bytes) (off width n : Nat)
    (shape : b.valueBase it = before ++ (toBigEndian width n ++ after)) (position : before.length = off) :
    numberAt ((b.valueBuffer it).take b.entrySize) off width = n % 256 ^ width := by
  have whole : (b.valueBuffer it).take b.entrySize = before ++ (toBigEndian width n ++
      (after ++ [b.formatByte it,b.packByte it,highByte it].take (b.entrySize - 16))) := by
    rw [fits.take_valueBuffer,shape]
    simp
  exact numberAt_field before off width n whole position

theorem packIDIndex_eq (fits : b.Fits it) :
    IndexV2.packIDIndex ((b.valueBuffer it).take b.entrySize) = b.packID2Index.idxOf it.packBlobID := by
  have bound := fits.packIndex_lt
  have low : numberAt ((b.valueBuffer it).take b.entrySize) v2EntryOffsetPackBlobID 2 =
      b.packID2Index.idxOf it.packBlobID % 2 ^ 16 :=
    fits.numberAt_value (b.timeField it ++ (toBigEndian 4 (offsetAndFlags it) ++
      (toBigEndian 3 it.originalLength.toNat ++ toBigEndian 3 it.packedLength.toNat))) _ _ _
      (by rw [List.append_nil]; simp [valueBase]) (by simp [v2EntryOffsetPackBlobID])
  have high := fits.packByte_toNat
  have short : b.packByte it = 0 → b.packID2Index.idxOf it.packBlobID % 2 ^ 16 =
      b.packID2Index.idxOf it.packBlobID := by
    intro zero
    rw [zero,Nat.shiftRight_eq_div_pow] at high
    have : 0 = b.packID2Index.idxOf it.packBlobID / 2 ^ 16 := high
    omega
  unfold IndexV2.packIDIndex
  rw [low]
  rcases fits.optional_cases with ⟨kept,_,zero,_⟩ | ⟨kept,zero,_⟩ | ⟨kept,_⟩ | kept
  · rw [kept,if_neg (by simp [v2EntryOffsetExtendedPackBlobID]),short zero]
  · rw [kept,if_neg (by simp [v2EntryOffsetExtendedPackBlobID]),short zero]
  all_goals
    rw [kept,if_pos (by simp [v2EntryOffsetExtendedPackBlobID]),
      numberAt_byte (b.valueBase it ++ [b.formatByte it]) _ (b.packByte it)
        (by rw [List.append_assoc]; rfl) (by simp [v2EntryOffsetExtendedPackBlobID]),high]
    exact or_shift_eq _ 16

end Fits

/-- The opened index has the tables of the builder. -/
structure Tables (ndx : IndexV2) (b : IndexBuilderV2) : Prop where
  baseTimestamp : ndx.hdr.baseTimestamp = 0
  formats : ndx.formats = b.uniqueFormatInfo2Index
  packCount : ndx.hdr.packCount = b.packID2Index.length
  packs : ndx.packBlobIDs = b.packID2Index

theorem Fits.formatByIndex_eq (fits : b.Fits it) {ndx : IndexV2} (tables : Tables ndx b) :
    ndx.formatByIndex (b.uniqueFormatInfo2Index.idxOf (indexV2FormatInfoFromInfo it)) =
      indexV2FormatInfoFromInfo it := by
  have inside := List.idxOf_lt_length_iff.mpr fits.format
  rw [IndexV2.formatByIndex,tables.formats,List.getD_eq_getElem?_getD,List.getElem?_eq_getElem inside,Option.getD_some,List.getElem_idxOf inside]

theorem Fits.getPackBlobIDByIndex_eq (fits : b.Fits it) {ndx : IndexV2} (tables : Tables ndx b) :
    ndx.getPackBlobIDByIndex (b.packID2Index.idxOf it.packBlobID) = it.packBlobID := by
  have inside := List.idxOf_lt_length_iff.mpr fits.pack
  rw [IndexV2.getPackBlobIDByIndex,tables.packCount,if_neg (by omega),tables.packs,
    List.getD_eq_getElem?_getD,List.getElem?_eq_getElem inside,Option.getD_some,List.getElem_idxOf inside]

/-- The deletion flag is the top bit of the number that holds the offset. -/
theorem deletedFlag_bits : ∀ high < 128, high &&& 128 = 0 ∧ (128 + high) &&& 128 ≠ 0 := by decide

theorem offsetAndFlags_eq (offset : it.packOffset.toNat < 2 ^ 31) :
    offsetAndFlags it = (if it.deleted then 2 ^ 31 else 0) + it.packOffset.toNat := by
  unfold offsetAndFlags
  split
  · rw [Nat.or_comm]
    exact (Nat.shiftLeft_add_eq_or_of_lt (i := 31) (b := it.packOffset.toNat) (by omega) 1).symm
  · simp

/-- The flag and the offset are read back from the number that holds both. -/
theorem offsetAndFlags_decodes (offset : it.packOffset.toNat < 2 ^ 31) {data before after : Bytes} {off : Nat}
    (shape : data = before ++ (toBigEndian 4 (offsetAndFlags it) ++ after)) (position : before.length = off) :
    decide (numberAt data off 1 &&& 0x80 ≠ 0) = it.deleted ∧
      UInt32.ofNat (numberAt data off 4 &&& (2 ^ 31 - 1)) = it.packOffset := by
  have eq := offsetAndFlags_eq offset
  have whole := numberAt_field before off 4 _ shape position
  have top := numberAt_field before off 1 (offsetAndFlags it / 256 ^ 3)
    (shape.trans (by simp [toBigEndian] : _ = before ++ (toBigEndian 1 (offsetAndFlags it / 256 ^ 3) ++
      (toBigEndian 3 (offsetAndFlags it) ++ after)))) position
  have bound : offsetAndFlags it < 2 ^ 32 := by rw [eq]; split <;> omega
  rw [eq] at top whole bound
  constructor
  · have bits := deletedFlag_bits (it.packOffset.toNat / 2 ^ 24) (by omega)
    rw [top]
    cases it.deleted with
    | false =>
      have shifted : ((if false = true then 2 ^ 31 else 0) + it.packOffset.toNat) / 256 ^ 3 % 256 ^ 1 =
          it.packOffset.toNat / 2 ^ 24 := by
        simp only [Bool.false_eq_true,if_false]
        omega
      rw [shifted]
      simpa using bits.1
    | true =>
      have shifted : ((if true = true then 2 ^ 31 else 0) + it.packOffset.toNat) / 256 ^ 3 % 256 ^ 1 =
          128 + it.packOffset.toNat / 2 ^ 24 := by
        simp only [if_true]
        omega
      rw [shifted,decide_eq_true_iff]
      exact bits.2
  · have value : ((if it.deleted then 2 ^ 31 else 0) + it.packOffset.toNat) % 256 ^ 4 % 2 ^ 31 =
        it.packOffset.toNat := by
      split <;> omega
    rw [whole,Nat.and_two_pow_sub_one_eq_mod,value]
    exact UInt32.ofNat_toNat

/-- A length comes back from its low 24 bits and its share of the high bits. -/
theorem Fits.length_eq (fits : b.Fits it) {after : Bytes} (before : Bytes) (off : Nat) (n : UInt32) {high : Nat}
    (shape : b.valueBase it = before ++ (toBigEndian 3 n.toNat ++ after)) (position : before.length = off)
    (bits : high = n.toNat >>> 24) :
    UInt32.ofNat (numberAt ((b.valueBuffer it).take b.entrySize) off 3 ||| high <<< 24) = n := by
  rw [fits.numberAt_value before off 3 _ shape position,bits,show (256 : Nat) ^ 3 = 2 ^ 24 from rfl,or_shift_eq]
  exact UInt32.ofNat_toNat

/-- A written entry decodes to the entry it was written for. -/
theorem Fits.entryToInfoStruct_eq (fits : b.Fits it) {ndx : IndexV2} (tables : Tables ndx b)
    (early : 0 ≤ it.timestampSeconds) (late : it.timestampSeconds < 2 ^ 32) :
    ndx.entryToInfoStruct it.contentID ((b.valueBuffer it).take b.entrySize) = .ok it := by
  have offset := fits.offset
  have packed := fits.packed
  have original := fits.original
  simp only [v2MaxPackOffset,v2MaxContentLength] at offset packed original
  have length : ¬ ((b.valueBuffer it).take b.entrySize).length < v2EntryMinLength := by
    rw [fits.take_valueBuffer]
    simp [v2EntryMinLength]
  have time : ((numberAt ((b.valueBuffer it).take b.entrySize) 0 4 : Nat) : Int) + ndx.hdr.baseTimestamp =
      it.timestampSeconds := by
    rw [fits.numberAt_value [] 0 _ _ rfl rfl,fits.base,tables.baseTimestamp]
    simp only [Int.sub_zero]
    omega
  obtain ⟨after,shape⟩ : ∃ after, (b.valueBuffer it).take b.entrySize =
      b.timeField it ++ (toBigEndian 4 (offsetAndFlags it) ++ after) :=
    ⟨_,by rw [fits.take_valueBuffer,valueBase,List.append_assoc,List.append_assoc]⟩
  have position : (b.timeField it).length = v2EntryOffsetPackOffsetAndFlags := length_timeField
  obtain ⟨deleted,place⟩ := offsetAndFlags_decodes (by omega) shape position
  have high := fits.highByte_toNat
  rw [Nat.shiftRight_eq_div_pow,Nat.shiftRight_eq_div_pow] at high
  have originalHigh : IndexV2.highLengthBits ((b.valueBuffer it).take b.entrySize) >>> 4 =
      it.originalLength.toNat >>> 24 := by
    rw [fits.highLengthBits_eq,high,Nat.shiftRight_eq_div_pow,Nat.shiftRight_eq_div_pow]
    omega
  have packedHigh : IndexV2.highLengthBits ((b.valueBuffer it).take b.entrySize) &&& 0xF =
      it.packedLength.toNat >>> 24 := by
    rw [fits.highLengthBits_eq,high,Nat.shiftRight_eq_div_pow,show (0xF : Nat) = 2 ^ 4 - 1 from rfl,
      Nat.and_two_pow_sub_one_eq_mod]
    omega
  have originalLength := fits.length_eq (b.timeField it ++ toBigEndian 4 (offsetAndFlags it))
    v2EntryOffsetOriginalLength it.originalLength (by rw [List.append_assoc]; rfl) (by simp [v2EntryOffsetOriginalLength]) originalHigh
  have packedLength := fits.length_eq
    (b.timeField it ++ (toBigEndian 4 (offsetAndFlags it) ++ toBigEndian 3 it.originalLength.toNat))
    v2EntryOffsetPackedLength it.packedLength (by rw [List.append_assoc,List.append_assoc]; rfl)
    (by simp [v2EntryOffsetPackedLength]) packedHigh
  rw [IndexV2.entryToInfoStruct,if_neg length,time,deleted,place,originalLength,packedLength,
    fits.formatIDIndex_eq,fits.packIDIndex_eq,fits.formatByIndex_eq tables,fits.getPackBlobIDByIndex_eq tables]
  rfl

end IndexBuilderV2

end Entry

end Vbe.Index
