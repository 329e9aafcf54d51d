import Vbe.ECC.Sizes
import Vbe.Library.Results

/-! What is stored: the shards of all blocks with their checksums in front, those of the
parity first. Padding that is not stored reads as zeroes. -/
namespace Vbe.ECC
open Vbe.Library.Bytes Vbe.Library.Checksums Vbe.Library.Results

section Lists
variable {α : Type}

/-- Adjacent pieces of one width. -/
theorem flatten_pieces (l : List α) (start width count : Nat) (inside : (start + count) * width ≤ l.length) :
    ((List.range count).map fun i => (l.drop ((start + i) * width)).take width).flatten =
      (l.drop (start * width)).take (count * width) := by
  induction count with
  | zero => simp
  | succ count ih =>
    have less : (start + count) * width ≤ l.length := by
      have grow : (start + (count + 1)) * width = (start + count) * width + width := by ring
      omega
    have position : (start + count) * width = start * width + count * width := by ring
    have total : (count + 1) * width = count * width + width := by ring
    rw [List.range_succ,List.map_append,List.flatten_append,ih less,List.map_singleton,List.flatten_singleton,position,
      ← List.drop_drop,total,List.take_add]

theorem piece_of_flatten {pieces : List (List α)} {width : Nat} (uniform : ∀ piece ∈ pieces, piece.length = width) {i : Nat}
    (bound : i < pieces.length) : (pieces.flatten.drop (i * width)).take width = pieces[i] := by
  have found := slice_flatten pieces width uniform i bound
  unfold slice at found
  split at found
  · rw [Nat.mul_comm] at found
    exact Option.some.inj found
  · contradiction

end Lists

section Padding

theorem section_ok {b : List UInt8} {position size : Nat} (inside : position + size ≤ b.length) : section' b position size = .ok ((b.drop position).take size) := if_pos inside

@[simp] theorem length_padded (b : List UInt8) (size : Nat) : (padded b size).length = max b.length size := by
  rw [padded,List.length_append,List.length_replicate]
  omega

theorem padded_append (b c : List UInt8) (size : Nat) : padded (b ++ c) (b.length + size) = b ++ padded c size := by
  have rest : b.length + size - (b ++ c).length = size - c.length := by
    rw [List.length_append]
    omega
  rw [padded,padded,rest,List.append_assoc]

theorem padded_nil (size : Nat) : padded [] size = List.replicate size 0 := rfl

/-- Padding to a multiple of a width can be done piece by piece. -/
theorem padded_padded (b : List UInt8) {first : Nat} (fits : b.length ≤ first) (rest : Nat) :
    padded b (first + rest) = padded b first ++ List.replicate rest 0 := by
  have split : first + rest - b.length = first - b.length + rest := by omega
  rw [padded,padded,split,List.replicate_add,List.append_assoc]

end Padding

section Encrypted
variable {rs : ReedSolomon} (sizes : SizesInfo rs) (inputBytes : List UInt8)

/-- A shard with its checksum in front. -/
def withChecksum (shard : Shard) : List UInt8 := crcBytes shard ++ shard

def dataShard (k : Nat) : Shard := (inputBytes.drop (k * sizes.shardSize)).take sizes.shardSize

def dataBlock (block : Nat) : List Shard :=
  (List.range sizes.dataShards).map fun i => dataShard sizes inputBytes (block * sizes.dataShards + i)

def parityBlock (block : Nat) : List Shard := (rs.Encode sizes.enc (dataBlock sizes inputBytes block)).getD []

/-- The data shards as they read: behind what is stored there are only zeroes. -/
def dataChunk (stored k : Nat) : List UInt8 :=
  if k < stored then withChecksum (dataShard sizes inputBytes k) else List.replicate (crcSize + sizes.shardSize) 0

variable {sizes inputBytes}

theorem length_withChecksum (shard : Shard) : (withChecksum shard).length = crcSize + shard.length := by
  simp [withChecksum,crcBytes]

theorem length_dataShard {k : Nat} (inside : (k + 1) * sizes.shardSize ≤ inputBytes.length) :
    (dataShard sizes inputBytes k).length = sizes.shardSize := by
  have step : (k + 1) * sizes.shardSize = k * sizes.shardSize + sizes.shardSize := by ring
  rw [dataShard,List.length_take,List.length_drop]
  omega

theorem length_dataChunk {stored k : Nat} (inside : (k + 1) * sizes.shardSize ≤ inputBytes.length) :
    (dataChunk sizes inputBytes stored k).length = crcSize + sizes.shardSize := by
  rw [dataChunk]
  split
  · rw [length_withChecksum,length_dataShard inside]
  · exact List.length_replicate

theorem storeData_done {toStore position : Nat} (done : toStore ≤ position) :
    sizes.storeData inputBytes toStore position = .ok [] := by
  rw [SizesInfo.storeData,if_neg (by omega)]

theorem storeData_step {toStore position : Nat} {rest : List UInt8} (positive : 0 < sizes.shardSize) (less : position < toStore)
    (inside : position + sizes.shardSize ≤ inputBytes.length)
    (stored : sizes.storeData inputBytes toStore (position + sizes.shardSize) = .ok rest) :
    sizes.storeData inputBytes toStore position =
      .ok (crcBytes ((inputBytes.drop position).take sizes.shardSize) ++
        ((inputBytes.drop position).take sizes.shardSize).take (min (toStore - position) sizes.shardSize) ++ rest) := by
  rw [SizesInfo.storeData,if_pos less,if_neg (by omega)]
  simp only
  rw [section_ok inside,ok_bind,stored,ok_bind]
  rfl

/-- The last shard is stored in part; what is left out are zeroes. -/
theorem padded_partly {toStore k : Nat} (inside : (k + 1) * sizes.shardSize ≤ inputBytes.length)
    (begun : k * sizes.shardSize ≤ toStore) (part : toStore ≤ (k + 1) * sizes.shardSize)
    (zeroes : ∀ byte ∈ inputBytes.drop toStore, byte = 0) :
    padded (crcBytes (dataShard sizes inputBytes k) ++ (dataShard sizes inputBytes k).take (toStore - k * sizes.shardSize))
      (crcSize + sizes.shardSize) = withChecksum (dataShard sizes inputBytes k) := by
  have step : (k + 1) * sizes.shardSize = k * sizes.shardSize + sizes.shardSize := by ring
  have length := length_dataShard inside
  have crc : (crcBytes (dataShard sizes inputBytes k)).length = crcSize := length_toBigEndian _ _
  have cut : (dataShard sizes inputBytes k).drop (toStore - k * sizes.shardSize) =
      List.replicate (sizes.shardSize - (toStore - k * sizes.shardSize)) 0 := by
    rw [List.eq_replicate_iff,List.length_drop,length]
    refine ⟨rfl,fun byte member => zeroes byte ?_⟩
    rw [dataShard,List.drop_take,List.drop_drop] at member
    have position : k * sizes.shardSize + (toStore - k * sizes.shardSize) = toStore := by omega
    rw [position] at member
    exact List.mem_of_mem_take member
  have left : crcSize + sizes.shardSize - (crcSize + (toStore - k * sizes.shardSize)) =
      sizes.shardSize - (toStore - k * sizes.shardSize) := by omega
  have stored : ((dataShard sizes inputBytes k).take (toStore - k * sizes.shardSize)).length = toStore - k * sizes.shardSize := by
    rw [List.length_take,length]
    omega
  rw [padded,List.length_append,crc,stored,left,← cut,List.append_assoc,List.take_append_drop,withChecksum]

/-- The data that is stored, from one shard on, reads as the shards from there on. -/
theorem storeData_spec {toStore stored count k : Nat} (positive : 0 < sizes.shardSize)
    (inside : (k + count) * sizes.shardSize ≤ inputBytes.length) (all : toStore ≤ stored * sizes.shardSize)
    (last : stored * sizes.shardSize < toStore + sizes.shardSize) (within : stored ≤ k + count)
    (zeroes : ∀ byte ∈ inputBytes.drop toStore, byte = 0) :
    ∃ output, sizes.storeData inputBytes toStore (k * sizes.shardSize) = .ok output ∧
      output.length = toStore - k * sizes.shardSize + crcSize * (stored - k) ∧
      padded output (count * (crcSize + sizes.shardSize)) =
        ((List.range count).map fun i => dataChunk sizes inputBytes stored (k + i)).flatten := by
  induction count generalizing k with
  | zero =>
    have done : toStore ≤ k * sizes.shardSize := Nat.le_trans all (Nat.mul_le_mul_right _ within)
    refine ⟨[],storeData_done done,?_,by simp [padded]⟩
    have none : stored - k = 0 := by omega
    rw [Nat.sub_eq_zero_of_le done,none]
    rfl
  | succ count ih =>
    have step : (k + 1) * sizes.shardSize = k * sizes.shardSize + sizes.shardSize := by ring
    have total : (count + 1) * (crcSize + sizes.shardSize) = crcSize + sizes.shardSize + count * (crcSize + sizes.shardSize) := by ring
    have next : k + 1 + count = k + (count + 1) := by omega
    have room : (k + 1) * sizes.shardSize ≤ inputBytes.length :=
      Nat.le_trans (Nat.mul_le_mul_right _ (by omega)) inside
    obtain ⟨rest,stores,length,reads⟩ := ih (k := k + 1) (by rw [next]; exact inside) (by omega)
    have pieces : ((List.range (count + 1)).map fun i => dataChunk sizes inputBytes stored (k + i)).flatten =
        dataChunk sizes inputBytes stored k ++
          ((List.range count).map fun i => dataChunk sizes inputBytes stored (k + 1 + i)).flatten := by
      have later : (List.range count).map ((fun i => dataChunk sizes inputBytes stored (k + i)) ∘ Nat.succ) =
          (List.range count).map fun i => dataChunk sizes inputBytes stored (k + 1 + i) :=
        List.map_congr_left fun i _ => congrArg (dataChunk sizes inputBytes stored) (show k + (i + 1) = k + 1 + i by omega)
      rw [List.range_succ_eq_map,List.map_cons,List.flatten_cons,List.map_map,later]
      rfl
    rw [pieces,total]
    by_cases present : k < stored
    · have less : k * sizes.shardSize < toStore := by
        have before : (k + 1) * sizes.shardSize ≤ stored * sizes.shardSize := Nat.mul_le_mul_right _ present
        omega
      have stores' := storeData_step positive less (by omega) (step ▸ stores)
      have shardLength := length_dataShard room
      have checksums : crcSize * (stored - k) = crcSize + crcSize * (stored - (k + 1)) := by
        have more : stored - k = stored - (k + 1) + 1 := by omega
        rw [more]
        ring
      refine ⟨_,stores',?_,?_⟩
      · rw [List.length_append,List.length_append,crcBytes,length_toBigEndian,List.length_take,length,checksums]
        have whole : ((inputBytes.drop (k * sizes.shardSize)).take sizes.shardSize).length = sizes.shardSize := shardLength
        rw [whole]
        omega
      · rw [dataChunk,if_pos present]
        by_cases full : (k + 1) * sizes.shardSize ≤ toStore
        · have left : min (toStore - k * sizes.shardSize) sizes.shardSize = sizes.shardSize := by omega
          have chunk : crcSize + sizes.shardSize = (withChecksum (dataShard sizes inputBytes k)).length := by
            rw [length_withChecksum,shardLength]
          rw [left,List.take_take,Nat.min_self,← reads]
          nth_rewrite 1 [chunk]
          exact padded_append _ _ _
        · have final : stored = k + 1 := by
            have less : stored * sizes.shardSize < (k + 2) * sizes.shardSize := by
              have twice : (k + 2) * sizes.shardSize = (k + 1) * sizes.shardSize + sizes.shardSize := by ring
              omega
            have := Nat.lt_of_mul_lt_mul_right less
            omega
          have empty : rest = [] := by
            apply List.eq_nil_of_length_eq_zero
            rw [length,final,Nat.sub_self]
            omega
          have left : min (toStore - k * sizes.shardSize) sizes.shardSize = toStore - k * sizes.shardSize := by omega
          have short : (crcBytes (dataShard sizes inputBytes k) ++
              (dataShard sizes inputBytes k).take (toStore - k * sizes.shardSize)).length ≤ crcSize + sizes.shardSize := by
            rw [List.length_append,crcBytes,length_toBigEndian,List.length_take,shardLength]
            omega
          rw [left,empty,List.append_nil,← reads,empty]
          refine (padded_padded _ short _).trans ?_
          rw [padded_partly room (by omega) (by omega) zeroes,padded_nil]
    · have done : toStore ≤ k * sizes.shardSize := Nat.le_trans all (Nat.mul_le_mul_right _ (by omega))
      have empty : rest = [] := by
        apply List.eq_nil_of_length_eq_zero
        have none : stored - (k + 1) = 0 := by omega
        rw [length,none]
        omega
      refine ⟨[],storeData_done done,?_,?_⟩
      · have none : stored - k = 0 := by omega
        rw [none,List.length_nil]
        omega
      · rw [dataChunk,if_neg present,← reads,empty,padded_nil,padded_nil,List.replicate_add]

end Encrypted

section Stored
variable {rs : ReedSolomon} {sizes : SizesInfo rs} {inputBytes : List UInt8} {length : Nat}

/-- All shards with their checksums, in the order in which they are stored. -/
def chunks (sizes : SizesInfo rs) (inputBytes : List UInt8) (stored : Nat) : List (List UInt8) :=
  ((List.range sizes.blocks).map fun block => (parityBlock sizes inputBytes block).map withChecksum).flatten ++
    (List.range (sizes.dataShards * sizes.blocks)).map (dataChunk sizes inputBytes stored)

theorem length_dataBlock (block : Nat) : (dataBlock sizes inputBytes block).length = sizes.dataShards := by
  simp [dataBlock]

theorem shard_room (size : inputBytes.length = sizes.dataShards * sizes.shardSize * sizes.blocks) {k : Nat}
    (inside : k < sizes.dataShards * sizes.blocks) : (k + 1) * sizes.shardSize ≤ inputBytes.length := by
  have scaled := Nat.mul_le_mul_right sizes.shardSize (show k + 1 ≤ sizes.dataShards * sizes.blocks by omega)
  have order : sizes.dataShards * sizes.blocks * sizes.shardSize = sizes.dataShards * sizes.shardSize * sizes.blocks := by ring
  omega

theorem index_inside {block i : Nat} (before : block < sizes.blocks) (inside : i < sizes.dataShards) :
    block * sizes.dataShards + i < sizes.dataShards * sizes.blocks := by
  have scaled := Nat.mul_le_mul_left sizes.dataShards (show block + 1 ≤ sizes.blocks by omega)
  have step : sizes.dataShards * (block + 1) = block * sizes.dataShards + sizes.dataShards := by ring
  omega

theorem dataBlock_uniform (size : inputBytes.length = sizes.dataShards * sizes.shardSize * sizes.blocks) {block : Nat}
    (before : block < sizes.blocks) : ∀ shard ∈ dataBlock sizes inputBytes block, shard.length = sizes.shardSize := by
  intro shard member
  obtain ⟨i,inside,rfl⟩ := List.mem_map.mp member
  exact length_dataShard (shard_room size (index_inside before (List.mem_range.mp inside)))

theorem parityBlock_spec (reconstructs : rs.Reconstructs) (fits : sizes.Fits length)
    (size : inputBytes.length = sizes.dataShards * sizes.shardSize * sizes.blocks) {block : Nat} (before : block < sizes.blocks) :
    rs.Encode sizes.enc (dataBlock sizes inputBytes block) = some (parityBlock sizes inputBytes block) ∧
      (parityBlock sizes inputBytes block).length = sizes.parityShards ∧
      ∀ shard ∈ parityBlock sizes inputBytes block, shard.length = sizes.shardSize := by
  obtain ⟨parity,encoded,count,uniform⟩ := reconstructs.encodes _ _ _ fits.encoder _ _ fits.positive
    (length_dataBlock block) (dataBlock_uniform size before)
  have same : parityBlock sizes inputBytes block = parity := by rw [parityBlock,encoded]; rfl
  rw [same]
  exact ⟨encoded,count,uniform⟩

theorem parityOfBlock_eq (reconstructs : rs.Reconstructs) (fits : sizes.Fits length)
    (size : inputBytes.length = sizes.dataShards * sizes.shardSize * sizes.blocks) {block : Nat} (before : block < sizes.blocks) :
    sizes.parityOfBlock inputBytes block = .ok ((parityBlock sizes inputBytes block).map withChecksum).flatten := by
  have read : (List.range sizes.dataShards).mapM (fun i => section' inputBytes
      ((block * sizes.dataShards + i) * sizes.shardSize) sizes.shardSize) =
      .ok (dataBlock sizes inputBytes block) := by
    apply mapM_ok
    intro i inside
    have room := shard_room size (index_inside before (List.mem_range.mp inside))
    rw [Nat.add_mul,Nat.one_mul] at room
    exact section_ok room
  rw [SizesInfo.parityOfBlock,read,ok_bind,(parityBlock_spec reconstructs fits size before).1]
  rfl

section Chunks
variable (reconstructs : rs.Reconstructs) (fits : sizes.Fits length)
  (size : inputBytes.length = sizes.dataShards * sizes.shardSize * sizes.blocks) (stored : Nat)
include reconstructs fits size

theorem parityChunks_uniform : ∀ pieces ∈ (List.range sizes.blocks).map
    (fun block => (parityBlock sizes inputBytes block).map withChecksum), pieces.length = sizes.parityShards := by
  intro pieces member
  obtain ⟨block,before,rfl⟩ := List.mem_map.mp member
  rw [List.length_map]
  exact (parityBlock_spec reconstructs fits size (List.mem_range.mp before)).2.1

theorem length_parityChunks : ((List.range sizes.blocks).map
    fun block => (parityBlock sizes inputBytes block).map withChecksum).flatten.length = sizes.blocks * sizes.parityShards := by
  rw [length_flatten_uniform _ _ (parityChunks_uniform reconstructs fits size),List.length_map,List.length_range,Nat.mul_comm]

theorem length_chunks :
    (chunks sizes inputBytes stored).length = sizes.blocks * sizes.parityShards + sizes.dataShards * sizes.blocks := by
  rw [chunks,List.length_append,length_parityChunks reconstructs fits size,List.length_map,List.length_range]

theorem chunks_uniform : ∀ chunk ∈ chunks sizes inputBytes stored, chunk.length = crcSize + sizes.shardSize := by
  intro chunk member
  rcases List.mem_append.mp member with parity | data
  · obtain ⟨pieces,inside,there⟩ := List.mem_flatten.mp parity
    obtain ⟨block,before,rfl⟩ := List.mem_map.mp inside
    obtain ⟨shard,own,rfl⟩ := List.mem_map.mp there
    rw [length_withChecksum,(parityBlock_spec reconstructs fits size (List.mem_range.mp before)).2.2 shard own]
  · obtain ⟨k,inside,rfl⟩ := List.mem_map.mp data
    exact length_dataChunk (shard_room size (List.mem_range.mp inside))

/-- The parity shards of a block come one after the other. -/
theorem chunks_parity {block i : Nat} (before : block < sizes.blocks) (inside : i < sizes.parityShards) :
    (chunks sizes inputBytes stored)[block * sizes.parityShards + i]? =
      (parityBlock sizes inputBytes block)[i]?.map withChecksum := by
  have bound : block < ((List.range sizes.blocks).map
      fun block => (parityBlock sizes inputBytes block).map withChecksum).length := by simpa using before
  have piece := piece_of_flatten (parityChunks_uniform reconstructs fits size) bound
  simp only [List.getElem_map,List.getElem_range] at piece
  have first : block * sizes.parityShards + i < sizes.blocks * sizes.parityShards := by
    have scaled := Nat.mul_le_mul_right sizes.parityShards (show block + 1 ≤ sizes.blocks by omega)
    have step : (block + 1) * sizes.parityShards = block * sizes.parityShards + sizes.parityShards := by ring
    omega
  rw [chunks,List.getElem?_append_left (by rw [length_parityChunks reconstructs fits size]; exact first),
    ← List.getElem?_map,← piece,List.getElem?_take_of_lt inside,List.getElem?_drop]

theorem chunks_data {k : Nat} (inside : k < sizes.dataShards * sizes.blocks) :
    (chunks sizes inputBytes stored)[sizes.blocks * sizes.parityShards + k]? = some (dataChunk sizes inputBytes stored k) := by
  have bound := length_parityChunks reconstructs fits size
  rw [chunks,List.getElem?_append_right (by omega),bound,Nat.add_sub_cancel_left,List.getElem?_map,
    List.getElem?_range inside]
  rfl

end Chunks

/-- The length of the buffer into which stored bytes are read. -/
def SizesInfo.readLengthOf (sizes : SizesInfo rs) : Nat :=
  (sizes.dataShards * (crcSize + sizes.shardSize) + sizes.parityShards * (crcSize + sizes.shardSize)) * sizes.blocks

end Stored

section Encrypt
variable {rs : ReedSolomon} {r : ReedSolomonCrcECC rs}

/-- The input with its length in front and cleared behind. -/
def inputBuffer (sizes : SizesInfo rs) (input : List UInt8) : List UInt8 :=
  padded (toBigEndian lengthSize input.length ++ input) (sizes.dataShards * sizes.shardSize * sizes.blocks)

theorem length_inputBuffer {sizes : SizesInfo rs} {input : List UInt8} (fits : sizes.Fits input.length) :
    (inputBuffer sizes input).length = sizes.dataShards * sizes.shardSize * sizes.blocks := by
  have covers := fits.covers
  rw [inputBuffer,length_padded,List.length_append,length_toBigEndian]
  omega

theorem toStore_bounds {sizes : SizesInfo rs} {length : Nat} (fits : sizes.Fits length) :
    lengthSize + length ≤ sizes.toStore length ∧ sizes.toStore length ≤ sizes.dataShards * sizes.shardSize * sizes.blocks := by
  have covers := fits.covers
  rw [SizesInfo.toStore]
  split
  · omega
  · omega

theorem inputBuffer_zeroes {sizes : SizesInfo rs} {input : List UInt8} (fits : sizes.Fits input.length) :
    ∀ byte ∈ (inputBuffer sizes input).drop (sizes.toStore input.length), byte = 0 := by
  intro byte member
  have beyond := (toStore_bounds fits).1
  rw [inputBuffer,padded,List.drop_append,List.drop_eq_nil_of_le (by
    rw [List.length_append,length_toBigEndian]
    exact beyond),List.nil_append] at member
  exact List.eq_of_mem_replicate (List.mem_of_mem_drop member)

theorem storedShards_spec {sizes : SizesInfo rs} {length : Nat} (fits : sizes.Fits length) :
    sizes.toStore length ≤ sizes.storedShards length * sizes.shardSize ∧
      sizes.storedShards length * sizes.shardSize < sizes.toStore length + sizes.shardSize ∧
      sizes.storedShards length ≤ sizes.dataShards * sizes.blocks := by
  have positive := fits.positive
  have most := (toStore_bounds fits).2
  have steps := (Nat.div_eq_iff positive).mp (rfl : sizes.storedShards length = sizes.storedShards length)
  refine ⟨by omega,by omega,?_⟩
  have less : sizes.storedShards length * sizes.shardSize < (sizes.dataShards * sizes.blocks + 1) * sizes.shardSize := by
    have order : (sizes.dataShards * sizes.blocks + 1) * sizes.shardSize =
        sizes.dataShards * sizes.shardSize * sizes.blocks + sizes.shardSize := by ring
    omega
  exact Nat.le_of_lt_succ (Nat.lt_of_mul_lt_mul_right less)

theorem Encrypt_spec (reconstructs : rs.Reconstructs) {input : List UInt8} {sizes : SizesInfo rs}
    (made : r.computeSizesFromOriginal input.length = sizes) (fits : sizes.Fits input.length) :
    ∃ output, r.Encrypt input = .ok output ∧ output.length = sizes.storedLength input.length ∧
      padded output sizes.readLengthOf =
        (chunks sizes (inputBuffer sizes input) (sizes.storedShards input.length)).flatten := by
  have size := length_inputBuffer fits
  obtain ⟨all,last,within⟩ := storedShards_spec fits
  have room : (0 + sizes.dataShards * sizes.blocks) * sizes.shardSize ≤ (inputBuffer sizes input).length := by
    have order : (0 + sizes.dataShards * sizes.blocks) * sizes.shardSize = sizes.dataShards * sizes.shardSize * sizes.blocks := by ring
    rw [size,order]
  obtain ⟨data,stores,dataLength,reads⟩ := storeData_spec (k := 0) fits.positive room all last (by omega) (inputBuffer_zeroes fits)
  have eccs : (List.range sizes.blocks).mapM (sizes.parityOfBlock (inputBuffer sizes input)) =
      .ok ((List.range sizes.blocks).map fun block => ((parityBlock sizes (inputBuffer sizes input) block).map withChecksum).flatten) := by
    apply mapM_ok
    intro block before
    exact parityOfBlock_eq reconstructs fits size (List.mem_range.mp before)
  have toStore : (if sizes.storePadding then (inputBuffer sizes input).length else lengthSize + input.length) =
      sizes.toStore input.length := by
    rw [SizesInfo.toStore,size]
  have flat : ((List.range sizes.blocks).map fun block =>
      ((parityBlock sizes (inputBuffer sizes input) block).map withChecksum).flatten).flatten =
      ((List.range sizes.blocks).map fun block => (parityBlock sizes (inputBuffer sizes input) block).map withChecksum).flatten.flatten := by
    rw [List.flatten_flatten,List.map_map]
    rfl
  have eccLength : ((List.range sizes.blocks).map fun block =>
      (parityBlock sizes (inputBuffer sizes input) block).map withChecksum).flatten.flatten.length =
      sizes.blocks * sizes.parityShards * (crcSize + sizes.shardSize) := by
    rw [length_flatten_uniform _ (crcSize + sizes.shardSize),length_parityChunks reconstructs fits size,Nat.mul_comm]
    intro chunk member
    exact chunks_uniform reconstructs fits size 0 chunk (List.mem_append_left _ member)
  refine ⟨((List.range sizes.blocks).map fun block =>
      (parityBlock sizes (inputBuffer sizes input) block).map withChecksum).flatten.flatten ++ data,?_,?_,?_⟩
  · rw [Nat.zero_mul] at stores
    rw [ReedSolomonCrcECC.Encrypt,made]
    simp only
    rw [← inputBuffer,eccs,ok_bind,toStore,stores,ok_bind,flat]
    rfl
  · rw [List.length_append,eccLength,dataLength,SizesInfo.storedLength,Nat.zero_mul,Nat.sub_zero,Nat.sub_zero,Nat.add_assoc]
  · have total : sizes.readLengthOf = sizes.blocks * sizes.parityShards * (crcSize + sizes.shardSize) +
        sizes.dataShards * sizes.blocks * (crcSize + sizes.shardSize) := by
      rw [SizesInfo.readLengthOf]
      ring
    simp only [Nat.zero_add] at reads
    rw [total,← eccLength,padded_append,reads,chunks,List.flatten_append]

end Encrypt

end Vbe.ECC
