import Vbe.ECC.Codes
import Vbe.ECC.Layout

/-! What is decoded from stored bytes in which some shards are damaged. A damaged shard counts as
missing, and as long as no block has lost more shards than it has parity shards, the input comes
back. -/
namespace Vbe.ECC
open Vbe.Library.Bytes Vbe.Library.Checksums Vbe.Library.Results

section Damage
variable {rs : ReedSolomon}

/-- A shard with its checksum, as it is read. -/
def SizesInfo.chunkAt (sizes : SizesInfo rs) (bytes : List UInt8) (j : Nat) : List UInt8 :=
  ((padded bytes sizes.readLengthOf).drop (j * (crcSize + sizes.shardSize))).take (crcSize + sizes.shardSize)

/-- Where the shards of a block are, the data shards first. -/
def SizesInfo.shardsOfBlock (sizes : SizesInfo rs) (block : Nat) : List Nat :=
  (List.range sizes.dataShards).map (fun i => sizes.blocks * sizes.parityShards + (block * sizes.dataShards + i)) ++
    (List.range sizes.parityShards).map fun i => block * sizes.parityShards + i

/-- Bytes are altered in place, in few shards of every block and never with a checksum that fits. -/
structure SizesInfo.Damage (sizes : SizesInfo rs) (stored altered : List UInt8) : Prop where
  length : altered.length = stored.length
  few : ∀ block < sizes.blocks, (sizes.shardsOfBlock block).countP
    (fun j => decide (sizes.chunkAt altered j ≠ sizes.chunkAt stored j)) ≤ sizes.parityShards
  detected : ∀ j, sizes.chunkAt altered j ≠ sizes.chunkAt stored j →
    ofBigEndian ((sizes.chunkAt altered j).take crcSize) ≠ (ChecksumIEEE ((sizes.chunkAt altered j).drop crcSize)).toNat

theorem SizesInfo.Damage.none (sizes : SizesInfo rs) (stored : List UInt8) : sizes.Damage stored stored := by
  refine ⟨rfl,fun block _ => ?_,fun j differs => absurd rfl differs⟩
  have unchanged : (sizes.shardsOfBlock block).countP
      (fun j => decide (sizes.chunkAt stored j ≠ sizes.chunkAt stored j)) = 0 := by simp
  omega

end Damage

section Shards

/-- What is made of a shard with its checksum. -/
def seen (chunk : List UInt8) (checked : Bool) : Option Shard :=
  if checked && ofBigEndian (chunk.take crcSize) != (ChecksumIEEE (chunk.drop crcSize)).toNat then none
  else some (chunk.drop crcSize)

theorem readShard_eq {bytes : List UInt8} {position size : Nat} (inside : position + (crcSize + size) ≤ bytes.length)
    (checked : Bool) :
    readShard bytes position size checked = .ok (seen ((bytes.drop position).take (crcSize + size)) checked) := by
  have front : ((bytes.drop position).take (crcSize + size)).take crcSize = (bytes.drop position).take crcSize := by
    rw [List.take_take,Nat.min_eq_left (Nat.le_add_right _ _)]
  have back : ((bytes.drop position).take (crcSize + size)).drop crcSize = (bytes.drop (position + crcSize)).take size := by
    rw [List.drop_take,List.drop_drop,Nat.add_sub_cancel_left]
  rw [readShard,section_ok (by omega),ok_bind,section_ok (by omega),ok_bind,seen,front,back]
  rfl

theorem seen_withChecksum (shard : Shard) (checked : Bool) : seen (withChecksum shard) checked = some shard := by
  have crc : (crcBytes shard).length = crcSize := length_toBigEndian _ _
  have front : (withChecksum shard).take crcSize = crcBytes shard := by rw [withChecksum,← crc,List.take_left]
  have back : (withChecksum shard).drop crcSize = shard := by rw [withChecksum,← crc,List.drop_left]
  have sum : ofBigEndian (crcBytes shard) = (ChecksumIEEE shard).toNat := ofBigEndian_of_lt (ChecksumIEEE shard).toNat_lt
  rw [seen,front,back,sum]
  simp

theorem seen_unchecked (chunk : List UInt8) : seen chunk false = some (chunk.drop crcSize) := rfl

theorem seen_damaged {chunk : List UInt8}
    (damaged : ofBigEndian (chunk.take crcSize) ≠ (ChecksumIEEE (chunk.drop crcSize)).toNat) : seen chunk true = none := by
  rw [seen]
  simp [damaged]

end Shards

section Blocks
variable {rs : ReedSolomon} {sizes : SizesInfo rs} {inputBytes stored altered : List UInt8} {length : Nat}

/-- The stored bytes are those of an input. -/
structure Holds (sizes : SizesInfo rs) (inputBytes stored : List UInt8) (length : Nat) : Prop where
  reconstructs : rs.Reconstructs
  fits : sizes.Fits length
  size : inputBytes.length = sizes.dataShards * sizes.shardSize * sizes.blocks
  zeroes : ∀ byte ∈ inputBytes.drop (sizes.toStore length), byte = 0
  count : stored.length = sizes.storedLength length
  reads : padded stored sizes.readLengthOf = (chunks sizes inputBytes (sizes.storedShards length)).flatten

theorem Holds.chunkAt (holds : Holds sizes inputBytes stored length) {j : Nat} {chunk : List UInt8}
    (there : (chunks sizes inputBytes (sizes.storedShards length))[j]? = some chunk) : sizes.chunkAt stored j = chunk := by
  obtain ⟨bound,same⟩ := List.getElem?_eq_some_iff.mp there
  rw [SizesInfo.chunkAt,holds.reads,piece_of_flatten (chunks_uniform holds.reconstructs holds.fits holds.size _) bound,same]

theorem Holds.length_padded (holds : Holds sizes inputBytes stored length) :
    (padded stored sizes.readLengthOf).length = sizes.readLengthOf ∧ stored.length ≤ sizes.readLengthOf := by
  have count : (padded stored sizes.readLengthOf).length = sizes.readLengthOf := by
    rw [holds.reads,length_flatten_uniform _ _ (chunks_uniform holds.reconstructs holds.fits holds.size _),
      length_chunks holds.reconstructs holds.fits holds.size,SizesInfo.readLengthOf]
    ring
  rw [ECC.length_padded] at count
  rw [ECC.length_padded]
  omega

/-- A shard is seen as it was stored, or it is missing and was altered. -/
def SizesInfo.Sees (sizes : SizesInfo rs) (stored altered : List UInt8) (j : Nat) (checked : Bool) (shard : Shard) : Prop :=
  seen (sizes.chunkAt altered j) checked = some shard ∨
    seen (sizes.chunkAt altered j) checked = none ∧ sizes.chunkAt altered j ≠ sizes.chunkAt stored j

theorem Holds.seen_checked (holds : Holds sizes inputBytes stored length) (damage : sizes.Damage stored altered) {j : Nat}
    {shard : Shard} (there : (chunks sizes inputBytes (sizes.storedShards length))[j]? = some (withChecksum shard)) :
    sizes.Sees stored altered j true shard := by
  rw [SizesInfo.Sees]
  by_cases same : sizes.chunkAt altered j = sizes.chunkAt stored j
  · rw [same,holds.chunkAt there]
    exact .inl (seen_withChecksum shard true)
  · exact .inr ⟨seen_damaged (damage.detected j same),same⟩

theorem Holds.dataShard_zeroes (holds : Holds sizes inputBytes stored length) {k : Nat}
    (inside : k < sizes.dataShards * sizes.blocks) (beyond : sizes.toStore length ≤ k * sizes.shardSize) :
    dataShard sizes inputBytes k = List.replicate sizes.shardSize 0 := by
  rw [List.eq_replicate_iff]
  refine ⟨length_dataShard (shard_room holds.size inside),fun byte member => holds.zeroes byte ?_⟩
  obtain ⟨more,position⟩ := Nat.exists_eq_add_of_le beyond
  rw [dataShard,position,← List.drop_drop] at member
  exact List.mem_of_mem_drop (List.mem_of_mem_take member)

/-- The data shards with a checksum are those that start before the padding. -/
theorem Holds.checked_iff (holds : Holds sizes inputBytes stored length) (k : Nat) :
    ((k * (crcSize + sizes.shardSize) : Nat) : Int) <
      stored.length - (sizes.parityShards * (crcSize + sizes.shardSize) * sizes.blocks : Nat) ↔ k < sizes.storedShards length := by
  obtain ⟨all,last,within⟩ := storedShards_spec holds.fits
  have size := holds.count
  have order : sizes.parityShards * (crcSize + sizes.shardSize) * sizes.blocks =
      sizes.blocks * sizes.parityShards * (crcSize + sizes.shardSize) := by ring
  have split : k * (crcSize + sizes.shardSize) = crcSize * k + k * sizes.shardSize := by ring
  rw [SizesInfo.storedLength] at size
  rw [order,split,size]
  constructor
  · intro before
    by_contra beyond
    have shards : sizes.storedShards length * sizes.shardSize ≤ k * sizes.shardSize := Nat.mul_le_mul_right _ (by omega)
    have checksums : crcSize * sizes.storedShards length ≤ crcSize * k := Nat.mul_le_mul_left _ (by omega)
    omega
  · intro before
    have shards : (k + 1) * sizes.shardSize ≤ sizes.storedShards length * sizes.shardSize := Nat.mul_le_mul_right _ before
    have checksums : crcSize * (k + 1) ≤ crcSize * sizes.storedShards length := Nat.mul_le_mul_left _ before
    have step : (k + 1) * sizes.shardSize = k * sizes.shardSize + sizes.shardSize := by ring
    have four : crcSize * (k + 1) = crcSize * k + 4 := by rw [Nat.mul_add]; rfl
    omega

/-- Behind the bytes that are there everything reads as zeroes. -/
theorem chunkAt_beyond {j : Nat} (inside : (j + 1) * (crcSize + sizes.shardSize) ≤ sizes.readLengthOf)
    (beyond : altered.length ≤ j * (crcSize + sizes.shardSize)) :
    sizes.chunkAt altered j = List.replicate (crcSize + sizes.shardSize) 0 := by
  have step : (j + 1) * (crcSize + sizes.shardSize) = j * (crcSize + sizes.shardSize) + (crcSize + sizes.shardSize) := by ring
  rw [SizesInfo.chunkAt,padded,List.drop_append,List.drop_eq_nil_of_le beyond,List.nil_append,List.drop_replicate,List.take_replicate]
  congr 1
  omega

theorem data_inside {k : Nat} (inside : k < sizes.dataShards * sizes.blocks) :
    (sizes.blocks * sizes.parityShards + k + 1) * (crcSize + sizes.shardSize) ≤ sizes.readLengthOf := by
  have scaled := Nat.mul_le_mul_right (crcSize + sizes.shardSize)
    (show sizes.blocks * sizes.parityShards + k + 1 ≤ sizes.blocks * sizes.parityShards + sizes.dataShards * sizes.blocks by omega)
  have total : sizes.readLengthOf = (sizes.blocks * sizes.parityShards + sizes.dataShards * sizes.blocks) * (crcSize + sizes.shardSize) := by
    rw [SizesInfo.readLengthOf]
    ring
  omega

theorem Holds.chunkAt_padding (holds : Holds sizes inputBytes stored length) (same : altered.length = stored.length) {k : Nat}
    (inside : k < sizes.dataShards * sizes.blocks) (beyond : sizes.storedShards length ≤ k) :
    sizes.chunkAt altered (sizes.blocks * sizes.parityShards + k) = List.replicate (crcSize + sizes.shardSize) 0 := by
  obtain ⟨all,_,_⟩ := storedShards_spec holds.fits
  have count := holds.count
  rw [SizesInfo.storedLength] at count
  have position : (sizes.blocks * sizes.parityShards + k) * (crcSize + sizes.shardSize) =
      sizes.blocks * sizes.parityShards * (crcSize + sizes.shardSize) + (crcSize * k + k * sizes.shardSize) := by ring
  have shards : sizes.storedShards length * sizes.shardSize ≤ k * sizes.shardSize := Nat.mul_le_mul_right _ beyond
  have checksums : crcSize * sizes.storedShards length ≤ crcSize * k := Nat.mul_le_mul_left _ beyond
  exact chunkAt_beyond (data_inside inside) (by omega)

/-- Whether the checksum of a shard is compared. -/
def SizesInfo.checkedAt (sizes : SizesInfo rs) (total k : Nat) : Bool :=
  decide (((k * (crcSize + sizes.shardSize) : Nat) : Int) <
    total - (sizes.parityShards * (crcSize + sizes.shardSize) * sizes.blocks : Nat))

theorem Holds.seen_data (holds : Holds sizes inputBytes stored length) (damage : sizes.Damage stored altered) {k : Nat}
    (inside : k < sizes.dataShards * sizes.blocks) :
    sizes.Sees stored altered (sizes.blocks * sizes.parityShards + k) (sizes.checkedAt altered.length k)
      (dataShard sizes inputBytes k) := by
  have there := chunks_data holds.reconstructs holds.fits holds.size (sizes.storedShards length) inside
  rw [SizesInfo.checkedAt,damage.length]
  by_cases before : k < sizes.storedShards length
  · rw [dataChunk,if_pos before] at there
    rw [decide_eq_true ((holds.checked_iff k).mpr before)]
    exact holds.seen_checked damage there
  · obtain ⟨all,_,_⟩ := storedShards_spec holds.fits
    have beyond : sizes.toStore length ≤ k * sizes.shardSize := Nat.le_trans all (Nat.mul_le_mul_right _ (by omega))
    rw [SizesInfo.Sees,decide_eq_false (mt (holds.checked_iff k).mp before),seen_unchecked,
      holds.chunkAt_padding damage.length inside (by omega),List.drop_replicate,Nat.add_sub_cancel_left,
      holds.dataShard_zeroes inside beyond]
    exact .inl rfl

theorem Holds.seen_parity (holds : Holds sizes inputBytes stored length) (damage : sizes.Damage stored altered) {block i : Nat}
    (before : block < sizes.blocks) {shard : Shard} (there : (parityBlock sizes inputBytes block)[i]? = some shard) :
    sizes.Sees stored altered (block * sizes.parityShards + i) true shard := by
  obtain ⟨_,count,_⟩ := parityBlock_spec holds.reconstructs holds.fits holds.size before
  obtain ⟨bound,_⟩ := List.getElem?_eq_some_iff.mp there
  have chunk := chunks_parity holds.reconstructs holds.fits holds.size (sizes.storedShards length) before (count ▸ bound)
  rw [there] at chunk
  exact holds.seen_checked damage chunk

/-- The shards of a block as they are seen, the data shards first. -/
def seenBlock (sizes : SizesInfo rs) (altered : List UInt8) (block : Nat) : List (Option Shard) :=
  (List.range sizes.dataShards).map (fun i => seen (sizes.chunkAt altered (sizes.blocks * sizes.parityShards +
    (block * sizes.dataShards + i))) (sizes.checkedAt altered.length (block * sizes.dataShards + i))) ++
  (List.range sizes.parityShards).map fun i => seen (sizes.chunkAt altered (block * sizes.parityShards + i)) true

theorem readBlock_eq (fits : altered.length ≤ sizes.readLengthOf) {block : Nat} (before : block < sizes.blocks) :
    sizes.readBlock
      ((padded altered sizes.readLengthOf).take (sizes.parityShards * (crcSize + sizes.shardSize) * sizes.blocks))
      ((padded altered sizes.readLengthOf).drop (sizes.parityShards * (crcSize + sizes.shardSize) * sizes.blocks))
      (altered.length - (sizes.parityShards * (crcSize + sizes.shardSize) * sizes.blocks : Nat)) block =
      .ok (seenBlock sizes altered block) := by
  have width : sizes.readLengthOf = sizes.parityShards * (crcSize + sizes.shardSize) * sizes.blocks +
      sizes.dataShards * sizes.blocks * (crcSize + sizes.shardSize) := by
    rw [SizesInfo.readLengthOf]
    ring
  have whole : (padded altered sizes.readLengthOf).length = sizes.readLengthOf := by
    rw [ECC.length_padded]
    omega
  have data : (List.range sizes.dataShards).mapM (fun i =>
      readShard ((padded altered sizes.readLengthOf).drop (sizes.parityShards * (crcSize + sizes.shardSize) * sizes.blocks))
        ((block * sizes.dataShards + i) * (crcSize + sizes.shardSize)) sizes.shardSize
        (sizes.checkedAt altered.length (block * sizes.dataShards + i))) =
      .ok ((List.range sizes.dataShards).map fun i => seen (sizes.chunkAt altered (sizes.blocks * sizes.parityShards +
        (block * sizes.dataShards + i))) (sizes.checkedAt altered.length (block * sizes.dataShards + i))) := by
    apply mapM_ok
    intro i inside
    have index := index_inside before (List.mem_range.mp inside)
    have room : (block * sizes.dataShards + i + 1) * (crcSize + sizes.shardSize) ≤
        sizes.dataShards * sizes.blocks * (crcSize + sizes.shardSize) := Nat.mul_le_mul_right _ index
    have step : (block * sizes.dataShards + i + 1) * (crcSize + sizes.shardSize) =
        (block * sizes.dataShards + i) * (crcSize + sizes.shardSize) + (crcSize + sizes.shardSize) := by ring
    have position : (sizes.blocks * sizes.parityShards + (block * sizes.dataShards + i)) * (crcSize + sizes.shardSize) =
        sizes.parityShards * (crcSize + sizes.shardSize) * sizes.blocks +
          (block * sizes.dataShards + i) * (crcSize + sizes.shardSize) := by ring
    rw [readShard_eq (by rw [List.length_drop,whole]; omega),List.drop_drop,← position]
    rfl
  have parity : (List.range sizes.parityShards).mapM (fun i =>
      readShard ((padded altered sizes.readLengthOf).take (sizes.parityShards * (crcSize + sizes.shardSize) * sizes.blocks))
        ((block * sizes.parityShards + i) * (crcSize + sizes.shardSize)) sizes.shardSize true) =
      .ok ((List.range sizes.parityShards).map fun i => seen (sizes.chunkAt altered (block * sizes.parityShards + i)) true) := by
    apply mapM_ok
    intro i inside
    have index := List.mem_range.mp inside
    have room : (block + 1) * sizes.parityShards * (crcSize + sizes.shardSize) ≤
        sizes.blocks * sizes.parityShards * (crcSize + sizes.shardSize) :=
      Nat.mul_le_mul_right _ (Nat.mul_le_mul_right _ before)
    have within : (block * sizes.parityShards + i + 1) * (crcSize + sizes.shardSize) ≤
        (block + 1) * sizes.parityShards * (crcSize + sizes.shardSize) := by
      apply Nat.mul_le_mul_right
      have next : (block + 1) * sizes.parityShards = block * sizes.parityShards + sizes.parityShards := by ring
      omega
    have step : (block * sizes.parityShards + i + 1) * (crcSize + sizes.shardSize) =
        (block * sizes.parityShards + i) * (crcSize + sizes.shardSize) + (crcSize + sizes.shardSize) := by ring
    have order : sizes.blocks * sizes.parityShards * (crcSize + sizes.shardSize) =
        sizes.parityShards * (crcSize + sizes.shardSize) * sizes.blocks := by ring
    rw [readShard_eq (by rw [List.length_take,whole]; omega),List.drop_take,List.take_take,Nat.min_eq_left (by omega)]
    rfl
  rw [SizesInfo.readBlock]
  simp only [SizesInfo.checkedAt] at data
  rw [data,ok_bind,parity,ok_bind]
  rfl

/-- The shards of a block are those of the input as far as they are there, and enough are. -/
def Whole (sizes : SizesInfo rs) (inputBytes altered : List UInt8) (block : Nat) : Prop :=
  List.Forall₂ (fun shard whole => shard = none ∨ shard = some whole) (seenBlock sizes altered block)
    (dataBlock sizes inputBytes block ++ parityBlock sizes inputBytes block) ∧
  sizes.dataShards ≤ (seenBlock sizes altered block).countP Option.isSome

/-- In a block that has lost no more shards than it has parity shards, enough are left. -/
theorem Holds.seenBlock_spec (holds : Holds sizes inputBytes stored length) (damage : sizes.Damage stored altered) {block : Nat}
    (before : block < sizes.blocks) : Whole sizes inputBytes altered block := by
  have data (i : Nat) (inside : i ∈ List.range sizes.dataShards) :=
    holds.seen_data damage (index_inside before (List.mem_range.mp inside))
  obtain ⟨_,count,_⟩ := parityBlock_spec holds.reconstructs holds.fits holds.size before
  have parity (i : Nat) (inside : i ∈ List.range sizes.parityShards) :
      sizes.Sees stored altered (block * sizes.parityShards + i) true ((parityBlock sizes inputBytes block).getD i []) := by
    have bound : i < (parityBlock sizes inputBytes block).length := count ▸ List.mem_range.mp inside
    apply holds.seen_parity damage before
    rw [List.getD_eq_getElem?_getD,List.getElem?_eq_getElem bound]
    rfl
  have all : parityBlock sizes inputBytes block =
      (List.range sizes.parityShards).map fun i => (parityBlock sizes inputBytes block).getD i [] := by
    apply List.ext_getElem
    · simp [count]
    · intro i inside _
      simp [inside]
  constructor
  · rw [seenBlock,all,dataBlock]
    apply List.rel_append
    · rw [List.forall₂_map_left_iff,List.forall₂_map_right_iff,List.forall₂_same]
      intro i inside
      rcases data i inside with own | ⟨missing,_⟩
      · exact .inr own
      · exact .inl missing
    · rw [List.forall₂_map_left_iff,List.forall₂_map_right_iff,List.forall₂_same]
      intro i inside
      rcases parity i inside with own | ⟨missing,_⟩
      · exact .inr own
      · exact .inl missing
  · have lost : (seenBlock sizes altered block).countP (fun shard => decide ¬ shard.isSome = true) ≤
        (sizes.shardsOfBlock block).countP (fun j => decide (sizes.chunkAt altered j ≠ sizes.chunkAt stored j)) := by
      rw [seenBlock,SizesInfo.shardsOfBlock,List.countP_append,List.countP_append,List.countP_map,List.countP_map,
        List.countP_map,List.countP_map]
      apply Nat.add_le_add
      · apply List.countP_mono_left
        intro i inside missing
        rcases data i inside with own | ⟨_,differs⟩
        · simp [own] at missing
        · exact decide_eq_true differs
      · apply List.countP_mono_left
        intro i inside missing
        rcases parity i inside with own | ⟨_,differs⟩
        · simp [own] at missing
        · exact decide_eq_true differs
    have few := damage.few block before
    have total : (seenBlock sizes altered block).length = sizes.dataShards + sizes.parityShards := by
      simp [seenBlock]
    have split := @List.length_eq_countP_add_countP _ Option.isSome (seenBlock sizes altered block)
    omega

end Blocks

section Decoded
variable {rs : ReedSolomon} {sizes : SizesInfo rs}

/-- What is copied is what the shards hold from some byte on, up to the length of the input. -/
theorem copyShards_eq (originalSize : Nat) (shards : List Shard) (uniform : ∀ shard ∈ shards, shard.length = sizes.shardSize)
    (startByte writeOriginalPos : Nat) (inside : startByte ≤ sizes.shardSize) :
    sizes.copyShards originalSize (shards.map some) startByte writeOriginalPos =
      .ok (writeOriginalPos + ((shards.flatten.drop startByte).take (originalSize - writeOriginalPos)).length,
        (shards.flatten.drop startByte).take (originalSize - writeOriginalPos)) := by
  induction shards generalizing startByte writeOriginalPos with
  | nil => simp [SizesInfo.copyShards]
  | cons shard shards ih =>
    have own : shard.length = sizes.shardSize := uniform shard (by simp)
    have rest := fun startByte writeOriginalPos inside => ih (fun other member => uniform other (by simp [member]))
      startByte writeOriginalPos inside
    rw [List.map_cons,SizesInfo.copyShards]
    split
    next more =>
      obtain ⟨left,size⟩ : ∃ left, left = min (originalSize - writeOriginalPos) (sizes.shardSize - startByte) := ⟨_,rfl⟩
      have piece : ((shard.drop startByte).take left).length = left := by
        rw [List.length_take,List.length_drop,own]
        omega
      have whole : ((shard :: shards).flatten.drop startByte).take (originalSize - writeOriginalPos) =
          (shard.drop startByte).take left ++ shards.flatten.take (originalSize - (writeOriginalPos + left)) := by
        rw [List.flatten_cons,List.drop_append_of_le_length (by omega),List.take_append,List.length_drop,own]
        by_cases full : sizes.shardSize - startByte ≤ originalSize - writeOriginalPos
        · have all : left = sizes.shardSize - startByte := by omega
          have left' : originalSize - (writeOriginalPos + left) = originalSize - writeOriginalPos - (sizes.shardSize - startByte) := by
            omega
          have tail : (shard.drop startByte).length = sizes.shardSize - startByte := by rw [List.length_drop,own]
          rw [left',all,List.take_of_length_le (tail ▸ full),List.take_of_length_le (Nat.le_of_eq tail)]
        · have part : left = originalSize - writeOriginalPos := by omega
          have done : originalSize - (writeOriginalPos + left) = originalSize - writeOriginalPos - (sizes.shardSize - startByte) := by
            omega
          rw [done,part]
      simp only [← size]
      rw [show present [some shard] 0 = .ok shard from rfl,ok_bind,section_ok (by omega),ok_bind,rest 0 _ (Nat.zero_le _),
        List.drop_zero,ok_bind,whole]
      simp only [List.length_append,piece]
      congr 2
      omega
    next done =>
      have none : originalSize - writeOriginalPos = 0 := by omega
      rw [none,List.take_zero]
      rfl

/-- The length is in the first bytes of the data, and the data go on behind them. -/
theorem readLength_eq (positive : 0 < sizes.shardSize) (shards : List Shard) (many : 4 ≤ shards.length)
    (uniform : ∀ shard ∈ shards, shard.length = sizes.shardSize) (rest : List (Option Shard)) :
    ∃ startShard startByte, sizes.readLength (shards.map some ++ rest) =
        .ok (ofBigEndian (shards.flatten.take 4),startShard,startByte) ∧
      startShard * sizes.shardSize + startByte = 4 ∧ startByte ≤ sizes.shardSize := by
  obtain ⟨a,b,c,d,shards,rfl⟩ : ∃ a b c d tail, shards = a :: b :: c :: d :: tail := by
    match shards with
    | a :: b :: c :: d :: tail => exact ⟨a,b,c,d,tail,rfl⟩
  have first : a.length = sizes.shardSize := uniform a (by simp)
  have second : b.length = sizes.shardSize := uniform b (by simp)
  rw [SizesInfo.readLength]
  split
  next one =>
    rw [one] at first second
    have third : c.length = 1 := one ▸ uniform c (by simp)
    have fourth : d.length = 1 := one ▸ uniform d (by simp)
    obtain ⟨x,rfl⟩ := List.length_eq_one_iff.mp first
    obtain ⟨y,rfl⟩ := List.length_eq_one_iff.mp second
    obtain ⟨z,rfl⟩ := List.length_eq_one_iff.mp third
    obtain ⟨w,rfl⟩ := List.length_eq_one_iff.mp fourth
    refine ⟨4,0,rfl,?_,Nat.zero_le _⟩
    omega
  next two =>
    rw [two] at first second
    obtain ⟨x,y,rfl⟩ := List.length_eq_two.mp first
    obtain ⟨z,w,rfl⟩ := List.length_eq_two.mp second
    refine ⟨2,0,rfl,?_,Nat.zero_le _⟩
    omega
  next three =>
    rw [three] at first second
    obtain ⟨x,y,z,rfl⟩ := List.length_eq_three.mp first
    obtain ⟨w,v,u,rfl⟩ := List.length_eq_three.mp second
    refine ⟨1,1,rfl,?_,?_⟩
    · omega
    · omega
  next four =>
    have whole : (a :: b :: c :: d :: shards).flatten.take 4 = a := by
      rw [List.flatten_cons,← four,← first,List.take_left]
    refine ⟨1,0,?_,?_,Nat.zero_le _⟩
    · rw [whole]
      rfl
    · omega
  next one two three four =>
    have more : 4 < a.length := by
      have lengths : sizes.shardSize ≠ 1 ∧ sizes.shardSize ≠ 2 ∧ sizes.shardSize ≠ 3 ∧ sizes.shardSize ≠ 4 := ⟨one,two,three,four⟩
      omega
    have whole : (a :: b :: c :: d :: shards).flatten.take 4 = (a.drop 0).take 4 := by
      rw [List.flatten_cons,List.take_append_of_le_length more.le,List.drop_zero]
    refine ⟨0,4,?_,?_,?_⟩
    · rw [show present ((a :: b :: c :: d :: shards).map some ++ rest) 0 = .ok a from rfl,ok_bind,section_ok (by omega),ok_bind,whole]
      rfl
    · omega
    · omega

theorem drop_flatten_uniform {α : Type} {pieces : List (List α)} {width : Nat} (uniform : ∀ piece ∈ pieces, piece.length = width)
    {n : Nat} (inside : n ≤ pieces.length) (more : Nat) :
    (pieces.drop n).flatten.drop more = pieces.flatten.drop (n * width + more) := by
  have front : (pieces.take n).flatten.length = n * width := by
    rw [length_flatten_uniform _ width fun piece member => uniform piece (List.mem_of_mem_take member),
      List.length_take,Nat.min_eq_left inside,Nat.mul_comm]
  have split : pieces.flatten = (pieces.take n).flatten ++ (pieces.drop n).flatten := by
    rw [← List.flatten_append,List.take_append_drop]
  rw [split,← front,← List.drop_drop,List.drop_left]

theorem flatten_dataBlock {inputBytes : List UInt8} (size : inputBytes.length = sizes.dataShards * sizes.shardSize * sizes.blocks)
    {block : Nat} (before : block < sizes.blocks) :
    (dataBlock sizes inputBytes block).flatten =
      (inputBytes.drop (block * (sizes.dataShards * sizes.shardSize))).take (sizes.dataShards * sizes.shardSize) := by
  have inside : (block * sizes.dataShards + sizes.dataShards) * sizes.shardSize ≤ inputBytes.length := by
    have scaled := Nat.mul_le_mul_left (sizes.dataShards * sizes.shardSize) (show block + 1 ≤ sizes.blocks by omega)
    have order : (block * sizes.dataShards + sizes.dataShards) * sizes.shardSize =
        sizes.dataShards * sizes.shardSize * (block + 1) := by ring
    omega
  have pieces := flatten_pieces inputBytes (block * sizes.dataShards) sizes.shardSize sizes.dataShards inside
  rw [Nat.mul_assoc] at pieces
  exact pieces

/-- The bytes of the input that the blocks before a block hold. -/
def written (sizes : SizesInfo rs) (length block : Nat) : Nat :=
  min length (block * (sizes.dataShards * sizes.shardSize) - lengthSize)

/-- What has been decoded before a block. -/
structure Progress (sizes : SizesInfo rs) (inputBytes : List UInt8) (length block : Nat) (d : Decoding) : Prop where
  position : d.writeOriginalPos = written sizes length block
  output : d.output = (inputBytes.drop lengthSize).take (written sizes length block)
  originalSize : 0 < block → d.originalSize = length

variable {inputBytes : List UInt8} {length block : Nat}

theorem written_next (fits : sizes.Fits length) (later : 0 < block) :
    written sizes length (block + 1) = written sizes length block +
        min (length - written sizes length block) (sizes.dataShards * sizes.shardSize) ∧
      (written sizes length block < length → lengthSize + written sizes length block = block * (sizes.dataShards * sizes.shardSize)) := by
  have wide : 6 ≤ sizes.dataShards * sizes.shardSize :=
    Nat.le_trans fits.dataShards (Nat.le_mul_of_pos_right _ fits.positive)
  have first : sizes.dataShards * sizes.shardSize ≤ block * (sizes.dataShards * sizes.shardSize) := Nat.le_mul_of_pos_left _ later
  have step : (block + 1) * (sizes.dataShards * sizes.shardSize) =
      block * (sizes.dataShards * sizes.shardSize) + sizes.dataShards * sizes.shardSize := by ring
  simp only [written,step,lengthSize]
  omega

/-- The bytes that a later block adds. -/
theorem written_append (inputBytes : List UInt8) (fits : sizes.Fits length) (later : 0 < block) :
    (inputBytes.drop lengthSize).take (written sizes length block) ++
      ((inputBytes.drop (block * (sizes.dataShards * sizes.shardSize))).take (sizes.dataShards * sizes.shardSize)).take
        (length - written sizes length block) =
      (inputBytes.drop lengthSize).take (written sizes length (block + 1)) := by
  obtain ⟨next,position⟩ := written_next fits later
  rw [next,List.take_add,List.drop_drop,List.take_take]
  by_cases more : written sizes length block < length
  · rw [position more]
  · have none : length - written sizes length block = 0 := by omega
    rw [none,Nat.zero_min,List.take_zero,List.take_zero]

end Decoded

section Runs
variable {rs : ReedSolomon} {r : ReedSolomonCrcECC rs} {sizes : SizesInfo rs} {inputBytes stored altered : List UInt8} {length : Nat}

/-- One block is decoded. -/
theorem decryptBlock_spec (untested : r.options.deleteFirstShardForTests = false) (holds : Holds sizes inputBytes stored length)
    (shorter : altered.length ≤ stored.length) (prefixed : ofBigEndian (inputBytes.take 4) = length) {block : Nat}
    (before : block < sizes.blocks) (whole : Whole sizes inputBytes altered block) {d : Decoding} (progress : Progress sizes inputBytes length block d) :
    ∃ d', r.decryptBlock sizes
        ((padded altered sizes.readLengthOf).take (sizes.parityShards * (crcSize + sizes.shardSize) * sizes.blocks))
        ((padded altered sizes.readLengthOf).drop (sizes.parityShards * (crcSize + sizes.shardSize) * sizes.blocks))
        (altered.length - (sizes.parityShards * (crcSize + sizes.shardSize) * sizes.blocks : Nat)) d block = .ok d' ∧
      Progress sizes inputBytes length (block + 1) d' := by
  have fits := holds.fits
  obtain ⟨encoded,_,_⟩ := parityBlock_spec holds.reconstructs fits holds.size before
  obtain ⟨seen,enough⟩ := whole
  have uniform := dataBlock_uniform holds.size before
  have count : (dataBlock sizes inputBytes block).length = sizes.dataShards := length_dataBlock block
  obtain ⟨rest,reconstructed⟩ := holds.reconstructs.reconstructs _ _ _ fits.encoder _ _ _ fits.positive count uniform
    encoded _ seen enough
  have shards : ((dataBlock sizes inputBytes block).map some ++ rest).take sizes.dataShards =
      (dataBlock sizes inputBytes block).map some := by
    rw [← count,← List.length_map (f := some),List.take_left]
  have flat := flatten_dataBlock holds.size before
  rw [ReedSolomonCrcECC.decryptBlock,readBlock_eq (shorter.trans holds.length_padded.2) before,ok_bind,untested]
  simp only [Bool.false_eq_true,if_false,reconstructed]
  by_cases first : block = 0
  · subst first
    have wide : 6 ≤ sizes.dataShards * sizes.shardSize :=
      Nat.le_trans fits.dataShards (Nat.le_mul_of_pos_right _ fits.positive)
    have data := fits.dataShards
    obtain ⟨startShard,startByte,read,total,inside⟩ := readLength_eq fits.positive (dataBlock sizes inputBytes 0) (by omega) uniform rest
    have position := progress.position
    have output := progress.output
    have none : written sizes length 0 = 0 := by simp [written]
    have few : startShard ≤ (dataBlock sizes inputBytes 0).length := by
      have := Nat.le_mul_of_pos_right startShard fits.positive
      omega
    rw [Nat.zero_mul,List.drop_zero] at flat
    have header : ofBigEndian ((dataBlock sizes inputBytes 0).flatten.take 4) = length := by
      rw [flat,List.take_take,Nat.min_eq_left (by omega),prefixed]
    rw [none] at position output
    rw [if_pos rfl,read,ok_bind,header]
    simp only
    rw [shards,← List.map_drop,copyShards_eq _ _ (fun shard member => uniform shard (List.mem_of_mem_drop member)) _ _ inside,
      ok_bind,drop_flatten_uniform uniform few,total,flat,position,output]
    have bytes : (((inputBytes.take (sizes.dataShards * sizes.shardSize)).drop 4).take (length - 0)) =
        (inputBytes.drop lengthSize).take (written sizes length 1) := by
      rw [List.drop_take,List.take_take,Nat.sub_zero,written,Nat.one_mul]
      rfl
    have size : ((inputBytes.drop lengthSize).take (written sizes length 1)).length = written sizes length 1 := by
      have all := holds.size
      have one : sizes.dataShards * sizes.shardSize ≤ sizes.dataShards * sizes.shardSize * sizes.blocks :=
        Nat.le_mul_of_pos_right _ before
      rw [List.length_take,List.length_drop,written,Nat.one_mul,lengthSize]
      omega
    rw [bytes,size]
    refine ⟨_,rfl,?_,?_,fun _ => rfl⟩
    · simp
    · simp
  · have later : 0 < block := by omega
    obtain ⟨next,_⟩ := written_next fits later
    have bytes := written_append inputBytes fits later
    rw [if_neg first,ok_bind]
    simp only [List.drop_zero]
    rw [shards,copyShards_eq _ _ uniform _ _ (Nat.zero_le _),ok_bind,flat,progress.position,progress.output,
      progress.originalSize later,List.drop_zero]
    refine ⟨_,rfl,?_,?_,fun _ => rfl⟩
    · have size : ((inputBytes.drop (block * (sizes.dataShards * sizes.shardSize))).take (sizes.dataShards * sizes.shardSize)).length =
          sizes.dataShards * sizes.shardSize := by
        have all := holds.size
        have scaled := Nat.mul_le_mul_left (sizes.dataShards * sizes.shardSize) (show block + 1 ≤ sizes.blocks by omega)
        have step : sizes.dataShards * sizes.shardSize * (block + 1) =
            block * (sizes.dataShards * sizes.shardSize) + sizes.dataShards * sizes.shardSize := by ring
        rw [List.length_take,List.length_drop]
        omega
      rw [List.length_take,size,next]
    · exact bytes

/-- Damaged or not, stored bytes whose blocks are whole decode to the input. -/
theorem Decrypt_eq (untested : r.options.deleteFirstShardForTests = false) (holds : Holds sizes inputBytes stored length)
    (shorter : altered.length ≤ stored.length) (whole : ∀ block < sizes.blocks, Whole sizes inputBytes altered block)
    (prefixed : ofBigEndian (inputBytes.take 4) = length) (same : r.computeSizesFromStored altered.length = sizes) :
    r.Decrypt altered = .ok ((inputBytes.drop lengthSize).take length) := by
  have blocks : ∀ count ≤ sizes.blocks, ∃ d, (List.range count).foldlM (r.decryptBlock sizes
        ((padded altered sizes.readLengthOf).take (sizes.parityShards * (crcSize + sizes.shardSize) * sizes.blocks))
        ((padded altered sizes.readLengthOf).drop (sizes.parityShards * (crcSize + sizes.shardSize) * sizes.blocks))
        (altered.length - (sizes.parityShards * (crcSize + sizes.shardSize) * sizes.blocks : Nat))) ⟨0,0,[]⟩ = .ok d ∧
      Progress sizes inputBytes length count d := by
    intro count
    induction count with
    | zero =>
      intro _
      refine ⟨_,rfl,?_,?_,fun none => absurd none (Nat.lt_irrefl 0)⟩
      · simp [written]
      · simp [written]
    | succ count ih =>
      intro within
      obtain ⟨d,run,progress⟩ := ih (by omega)
      obtain ⟨d',step,progress'⟩ := decryptBlock_spec untested holds shorter prefixed (show count < sizes.blocks by omega)
        (whole count (by omega)) progress
      refine ⟨d',?_,progress'⟩
      rw [List.range_succ,List.foldlM_append,run,ok_bind,List.foldlM_cons,step]
      rfl
  obtain ⟨d,run,progress⟩ := blocks sizes.blocks (Nat.le_refl _)
  have covers := holds.fits.covers
  have all : written sizes length sizes.blocks = length := by
    have order : sizes.blocks * (sizes.dataShards * sizes.shardSize) = sizes.dataShards * sizes.shardSize * sizes.blocks :=
      Nat.mul_comm _ _
    rw [written,order]
    omega
  have output := progress.output
  rw [all] at output
  rw [ReedSolomonCrcECC.Decrypt,same]
  rw [← SizesInfo.readLengthOf,run,ok_bind,output]
  rfl

theorem holds_of_Encrypt (reconstructs : rs.Reconstructs) {input : List UInt8} (made : r.computeSizesFromOriginal input.length = sizes)
    (fits : sizes.Fits input.length) :
    ∃ output, r.Encrypt input = .ok output ∧ Holds sizes (inputBuffer sizes input) output input.length := by
  obtain ⟨output,encrypted,count,reads⟩ := Encrypt_spec reconstructs made fits
  exact ⟨output,encrypted,reconstructs,fits,length_inputBuffer fits,inputBuffer_zeroes fits,count,reads⟩

theorem inputBuffer_prefixed {input : List UInt8} (short : input.length < 2 ^ 32 - 4) :
    ofBigEndian ((inputBuffer sizes input).take 4) = input.length := by
  have front : (toBigEndian lengthSize input.length).length = 4 := length_toBigEndian _ _
  rw [inputBuffer,padded,List.append_assoc,← front,List.take_left]
  apply ofBigEndian_of_lt
  rw [lengthSize]
  omega

theorem inputBuffer_drop (input : List UInt8) : ((inputBuffer sizes input).drop lengthSize).take input.length = input := by
  have front : (toBigEndian lengthSize input.length).length = lengthSize := length_toBigEndian _ _
  rw [inputBuffer,padded,List.append_assoc,List.drop_append_of_le_length (by omega),List.drop_of_length_le (by omega),
    List.nil_append,List.take_left]

theorem corrects_damage (rs : ReedSolomon) (overheadPercent : Nat) (reconstructs : rs.Reconstructs) :
    ∃ r, newReedSolomonCrcECC rs ⟨overheadPercent,0,false⟩ = .ok r ∧
      ∀ input : List UInt8, input.length < 2 ^ 32 - 4 →
        ∃ stored, r.Encrypt input = .ok stored ∧
          r.computeSizesFromStored stored.length = r.computeSizesFromOriginal input.length ∧
          r.Decrypt stored = .ok input ∧
          ∀ altered, (r.computeSizesFromOriginal input.length).Damage stored altered → r.Decrypt altered = .ok input := by
  obtain ⟨r,made,derived⟩ := newReedSolomonCrcECC_derived reconstructs.encoder overheadPercent
  refine ⟨r,made,fun input short => ?_⟩
  have fits := fits_original derived short
  obtain ⟨stored,encrypted,holds⟩ := holds_of_Encrypt reconstructs rfl fits
  have same : r.computeSizesFromStored stored.length = r.computeSizesFromOriginal input.length := by
    rw [holds.count]
    exact sizes_of_stored derived short
  have decrypts : ∀ altered, (r.computeSizesFromOriginal input.length).Damage stored altered → r.Decrypt altered = .ok input := by
    intro altered damage
    have whole : ∀ block < (r.computeSizesFromOriginal input.length).blocks, Whole _ (inputBuffer _ input) altered block :=
      fun block before => holds.seenBlock_spec damage before
    rw [Decrypt_eq derived.untested holds damage.length.le whole (inputBuffer_prefixed short) (damage.length ▸ same),inputBuffer_drop]
  exact ⟨stored,encrypted,same,decrypts stored (SizesInfo.Damage.none _ stored),decrypts⟩

theorem corrects_damage_two_percent :
    ∃ r, newReedSolomonCrcECC interpolationCode ⟨2,0,false⟩ = .ok r ∧
      ∀ input : List UInt8, input.length < 2 ^ 32 - 4 →
        ∃ stored, r.Encrypt input = .ok stored ∧
          r.computeSizesFromStored stored.length = r.computeSizesFromOriginal input.length ∧
          r.Decrypt stored = .ok input ∧
          ∀ altered, (r.computeSizesFromOriginal input.length).Damage stored altered → r.Decrypt altered = .ok input :=
  corrects_damage interpolationCode 2 interpolationCode_reconstructs

end Runs

end Vbe.ECC
