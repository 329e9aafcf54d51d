import Vbe.ECC.Correction

/-! Decoding of bytes that are shorter than what was stored. Their length tells the layout, and what is missing reads as zeroes
without a checksum. -/
namespace Vbe.ECC
open Vbe.Library.Bytes Vbe.Library.Checksums Vbe.Library.Results

/-- Missing data shards are filled in from as many shards as there are data shards, and from fewer nothing is. -/
structure ReedSolomon.Checks (rs : ReedSolomon) : Prop where
  tooFew : ∀ d p enc, rs.New d p = some enc → ∀ shards : List (Option Shard), shards.length = d + p →
    shards.countP Option.isSome < d → rs.ReconstructData enc shards = none
  fills : ∀ d p enc, rs.New d p = some enc → ∀ size shards filled, 0 < size → shards.length = d + p →
    (∀ shard, some shard ∈ shards → shard.length = size) → rs.ReconstructData enc shards = some filled →
    ∃ (data : List Shard) (rest : List (Option Shard)), filled = data.map some ++ rest ∧ data.length = d ∧ ∀ shard ∈ data, shard.length = size

theorem interpolationCode_checks : interpolationCode.Checks := by
  constructor
  · intro d p enc made shards _ few
    obtain ⟨_,_,rfl⟩ := New_eq made
    exact if_neg (Nat.not_le_of_lt few)
  · intro d p enc made size shards filled _ _ uniform reconstructed
    obtain ⟨positive,_,rfl⟩ := New_eq made
    have run : (if d ≤ shards.countP Option.isSome then
        some ((List.range d).map (fun i => some (recoverShard shards i)) ++ shards.drop d) else none) = some filled := reconstructed
    split at run
    next enough =>
      obtain ⟨known,there,some'⟩ := List.countP_pos_iff.mp (Nat.lt_of_lt_of_le positive enough)
      obtain ⟨shard,rfl⟩ := Option.isSome_iff_exists.mp some'
      obtain ⟨head,tail,split⟩ := List.exists_cons_of_ne_nil (List.ne_nil_of_mem (List.reduceOption_mem_iff.mpr there))
      have first : some head ∈ shards := List.reduceOption_mem_iff.mp (split ▸ List.mem_cons_self)
      refine ⟨(List.range d).map (recoverShard shards),shards.drop d,?_,by simp,fun shard member => ?_⟩
      · rw [List.map_map]
        exact (Option.some.inj run).symm
      · obtain ⟨i,_,rfl⟩ := List.mem_map.mp member
        rw [recoverShard,List.length_map,List.length_range,split]
        exact uniform head first
    next => contradiction

section Layouts
variable {rs : ReedSolomon} {r : ReedSolomonCrcECC rs}

/-- A layout that bytes of some length can be read in. -/
structure SizesInfo.Reads (sizes : SizesInfo rs) (length : Nat) : Prop where
  positive : 0 < sizes.shardSize
  dataShards : 6 ≤ sizes.dataShards
  encoder : rs.New sizes.dataShards sizes.parityShards = some sizes.enc
  room : length ≤ sizes.readLengthOf

theorem reads_stored (derived : r.Derived) {length : Nat} (short : length < 2 ^ 53) : (r.computeSizesFromStored length).Reads length := by
  have data := derived.dataShards
  have parity := derived.parityShards
  have least := derived.least
  rw [ReedSolomonCrcECC.computeSizesFromStored]
  split
  · have ceiling := (ceilInt_spec short (show 0 < smallFilesDataShards + smallFilesParityShards from Nat.succ_pos 7)).1
    refine ⟨?_,Nat.le_refl 6,derived.small,?_⟩
    · simp only [crcSize]
      omega
    · simp only [SizesInfo.readLengthOf,smallFilesDataShards,smallFilesParityShards,crcSize] at ceiling ⊢
      omega
  · split
    · have ceiling := (ceilInt_spec short (show 0 < r.dataShards + r.parityShards by omega)).1
      generalize ceilInt length (r.dataShards + r.parityShards) = size at ceiling
      refine ⟨?_,by simp only; omega,derived.big,?_⟩
      · simp only [crcSize]
        omega
      · have width : crcSize + (max size (1 + crcSize) - crcSize) = max size (1 + crcSize) := by
          simp only [crcSize]
          omega
        have more := Nat.mul_le_mul_right (r.dataShards + r.parityShards) (Nat.le_max_left size (1 + crcSize))
        simp only [SizesInfo.readLengthOf,width,Nat.mul_one,← Nat.add_mul]
        rw [Nat.mul_comm] at more
        rw [Nat.mul_comm] at ceiling
        rw [Nat.mul_comm _ (r.dataShards + r.parityShards)] at more
        omega
    · have wide : 0 < (r.dataShards + r.parityShards) * (crcSize + r.options.maxShardSize) :=
        Nat.mul_pos (by omega) (by omega)
      have ceiling := (ceilInt_spec short wide).1
      refine ⟨by simp only; omega,by simp only; omega,derived.big,?_⟩
      simp only [SizesInfo.readLengthOf,← Nat.add_mul]
      rw [Nat.mul_comm]
      exact ceiling

theorem readLengthOf_short (derived : r.Derived) {length : Nat} (short : length < 2 ^ 32 - 4) :
    (r.computeSizesFromOriginal length).readLengthOf < 2 ^ 53 := by
  have data := derived.dataShards
  have shards := derived.shards
  have least := derived.least
  have most := derived.most
  rcases computeSizesFromOriginal_cases derived length with ⟨small,sizes⟩ | ⟨larger,medium,sizes⟩ | ⟨large,sizes⟩
  · have ceiling := (ceilInt_spec (show length + 4 < 2 ^ 53 by omega) (show 0 < 6 by decide)).2
    rw [sizes]
    simp only [SizesInfo.readLengthOf,crcSize]
    omega
  · have ceiling := (ceilInt_spec (show length + 4 < 2 ^ 53 by omega) (show 0 < r.dataShards by omega)).2
    rw [sizes]
    simp only [SizesInfo.readLengthOf,crcSize,Nat.mul_one,← Nat.add_mul]
    generalize ceilInt (length + 4) r.dataShards = size at *
    have scaled := Nat.le_mul_of_pos_right size (show 0 < r.dataShards by omega)
    have product := Nat.mul_le_mul_right (4 + size) shards
    omega
  · obtain ⟨_,tight⟩ := blocks_spec derived short
    rw [sizes]
    simp only [SizesInfo.readLengthOf,crcSize,← Nat.add_mul]
    generalize ceilInt (length + 4) (r.dataShards * r.options.maxShardSize) = blocks at *
    have area : r.dataShards * r.options.maxShardSize ≤ 256 * 1024 := Nat.mul_le_mul (by omega) most
    have scaled := Nat.le_mul_of_pos_right blocks (show 0 < r.dataShards * r.options.maxShardSize from Nat.mul_pos (by omega) (by omega))
    have product := Nat.mul_le_mul (Nat.mul_le_mul shards (show 4 + r.options.maxShardSize ≤ 1028 by omega)) (Nat.le_refl blocks)
    omega

end Layouts

section Decoding
variable {rs : ReedSolomon} {r : ReedSolomonCrcECC rs} {sizes : SizesInfo rs} {altered : List UInt8}

theorem seen_length {chunk : List UInt8} {size : Nat} (width : chunk.length = crcSize + size) {checked : Bool} {shard : Shard}
    (found : seen chunk checked = some shard) : shard.length = size := by
  rw [seen] at found
  split at found
  · contradiction
  · cases found
    rw [List.length_drop,width]
    omega

theorem length_chunkAt (room : altered.length ≤ sizes.readLengthOf) {j : Nat}
    (inside : j < (sizes.dataShards + sizes.parityShards) * sizes.blocks) :
    (sizes.chunkAt altered j).length = crcSize + sizes.shardSize := by
  have scaled : (j + 1) * (crcSize + sizes.shardSize) ≤ (sizes.dataShards + sizes.parityShards) * sizes.blocks * (crcSize + sizes.shardSize) :=
    Nat.mul_le_mul_right _ inside
  have total : sizes.readLengthOf = (sizes.dataShards + sizes.parityShards) * sizes.blocks * (crcSize + sizes.shardSize) := by
    rw [SizesInfo.readLengthOf]
    ring
  have step : (j + 1) * (crcSize + sizes.shardSize) = j * (crcSize + sizes.shardSize) + (crcSize + sizes.shardSize) := by ring
  rw [SizesInfo.chunkAt,List.length_take,List.length_drop,length_padded]
  omega

theorem seenBlock_length (block : Nat) : (seenBlock sizes altered block).length = sizes.dataShards + sizes.parityShards := by
  simp [seenBlock]

theorem seenBlock_uniform (room : altered.length ≤ sizes.readLengthOf) {block : Nat} (before : block < sizes.blocks) {shard : Shard}
    (member : some shard ∈ seenBlock sizes altered block) : shard.length = sizes.shardSize := by
  have total : (sizes.dataShards + sizes.parityShards) * sizes.blocks = sizes.dataShards * sizes.blocks + sizes.blocks * sizes.parityShards := by
    ring
  rcases List.mem_append.mp member with data | parity
  · obtain ⟨i,inside,found⟩ := List.mem_map.mp data
    have index := index_inside before (List.mem_range.mp inside)
    exact seen_length (length_chunkAt room (by omega)) found
  · obtain ⟨i,inside,found⟩ := List.mem_map.mp parity
    have scaled := Nat.mul_le_mul_right sizes.parityShards (show block + 1 ≤ sizes.blocks from before)
    have step : (block + 1) * sizes.parityShards = block * sizes.parityShards + sizes.parityShards := by ring
    have index := List.mem_range.mp inside
    exact seen_length (length_chunkAt room (by omega)) found

/-- Enough shards of a block are seen. -/
def Enough (sizes : SizesInfo rs) (altered : List UInt8) (block : Nat) : Prop :=
  sizes.dataShards ≤ (seenBlock sizes altered block).countP Option.isSome

/-- A block is decoded to something, or the code cannot fill in what is missing. -/
theorem decryptBlock_cases (untested : r.options.deleteFirstShardForTests = false) (checks : rs.Checks)
    (layout : sizes.Reads altered.length) {block : Nat} (before : block < sizes.blocks) (d : Decoding) :
    r.decryptBlock sizes
        ((padded altered sizes.readLengthOf).take (sizes.parityShards * (crcSize + sizes.shardSize) * sizes.blocks))
        ((padded altered sizes.readLengthOf).drop (sizes.parityShards * (crcSize + sizes.shardSize) * sizes.blocks))
        (altered.length - (sizes.parityShards * (crcSize + sizes.shardSize) * sizes.blocks : Nat)) d block = .error .computingECC ∨
      Enough sizes altered block ∧ ∃ d', r.decryptBlock sizes
        ((padded altered sizes.readLengthOf).take (sizes.parityShards * (crcSize + sizes.shardSize) * sizes.blocks))
        ((padded altered sizes.readLengthOf).drop (sizes.parityShards * (crcSize + sizes.shardSize) * sizes.blocks))
        (altered.length - (sizes.parityShards * (crcSize + sizes.shardSize) * sizes.blocks : Nat)) d block = .ok d' := by
  rw [ReedSolomonCrcECC.decryptBlock,readBlock_eq layout.room before,ok_bind,untested]
  simp only [Bool.false_eq_true,if_false]
  cases reconstructed : rs.ReconstructData sizes.enc (seenBlock sizes altered block) with
  | none => exact .inl rfl
  | some filled =>
    refine .inr ⟨?_,?_⟩
    · by_contra few
      rw [checks.tooFew _ _ _ layout.encoder _ (seenBlock_length block) (Nat.lt_of_not_le few)] at reconstructed
      contradiction
    · obtain ⟨data,rest,rfl,count,uniform⟩ := checks.fills _ _ _ layout.encoder _ _ _ layout.positive (seenBlock_length block)
        (fun shard member => seenBlock_uniform layout.room before member) reconstructed
      have shards : (data.map some ++ rest).take sizes.dataShards = data.map some := by
        rw [← count,← List.length_map (f := some),List.take_left]
      have many := layout.dataShards
      by_cases first : block = 0
      · obtain ⟨startShard,startByte,read,_,inside⟩ := readLength_eq layout.positive data (by omega) uniform rest
        simp only [if_pos first]
        rw [read,ok_bind]
        simp only
        rw [shards,← List.map_drop,copyShards_eq _ _ (fun shard member => uniform shard (List.mem_of_mem_drop member)) _ _ inside]
        exact ⟨_,rfl⟩
      · simp only [if_neg first]
        rw [ok_bind]
        simp only [List.drop_zero]
        rw [shards,copyShards_eq _ _ uniform _ _ (Nat.zero_le _)]
        exact ⟨_,rfl⟩

/-- Decoding never runs out of a buffer: where it does not succeed, the code could not fill in what is missing. -/
theorem Decrypt_cases (untested : r.options.deleteFirstShardForTests = false) (checks : rs.Checks)
    (layout : (r.computeSizesFromStored altered.length).Reads altered.length) :
    r.Decrypt altered = .error .computingECC ∨
      (∀ block < (r.computeSizesFromStored altered.length).blocks, Enough (r.computeSizesFromStored altered.length) altered block) ∧
        ∃ output, r.Decrypt altered = .ok output := by
  rw [ReedSolomonCrcECC.Decrypt]
  rw [← SizesInfo.readLengthOf]
  generalize r.computeSizesFromStored altered.length = sizes at *
  rcases foldlM_cases (l := List.range sizes.blocks)
    (fun block before => decryptBlock_cases untested checks layout (List.mem_range.mp before)) ⟨0,0,[]⟩ with failed | ⟨enough,d,run⟩
  · rw [failed]
    exact .inl rfl
  · rw [run,ok_bind]
    exact .inr ⟨fun block before => enough block (List.mem_range.mpr before),_,rfl⟩

end Decoding

section Truncated
variable {rs : ReedSolomon} {sizes : SizesInfo rs} {inputBytes stored altered : List UInt8} {length : Nat}

/-- No shard that is altered and whose checksum is compared has a checksum that fits. -/
structure SizesInfo.Detects (sizes : SizesInfo rs) (stored altered : List UInt8) : Prop where
  parity : ∀ j < sizes.blocks * sizes.parityShards, sizes.chunkAt altered j ≠ sizes.chunkAt stored j →
    ofBigEndian ((sizes.chunkAt altered j).take crcSize) ≠ (ChecksumIEEE ((sizes.chunkAt altered j).drop crcSize)).toNat
  data : ∀ k < sizes.dataShards * sizes.blocks, sizes.checkedAt altered.length k = true →
    sizes.chunkAt altered (sizes.blocks * sizes.parityShards + k) ≠ sizes.chunkAt stored (sizes.blocks * sizes.parityShards + k) →
    ofBigEndian ((sizes.chunkAt altered (sizes.blocks * sizes.parityShards + k)).take crcSize) ≠
      (ChecksumIEEE ((sizes.chunkAt altered (sizes.blocks * sizes.parityShards + k)).drop crcSize)).toNat

/-- The data shards whose checksums are not compared are padding. -/
def SizesInfo.Padding (sizes : SizesInfo rs) (inputBytes altered : List UInt8) : Prop :=
  ∀ k < sizes.dataShards * sizes.blocks, sizes.checkedAt altered.length k = false → ∀ byte ∈ dataShard sizes inputBytes k, byte = 0

/-- A shard whose checksum is compared is seen as it was stored, or not at all. -/
theorem seen_compared {j : Nat} {shard : Shard} (there : sizes.chunkAt stored j = withChecksum shard)
    (detected : sizes.chunkAt altered j ≠ sizes.chunkAt stored j →
      ofBigEndian ((sizes.chunkAt altered j).take crcSize) ≠ (ChecksumIEEE ((sizes.chunkAt altered j).drop crcSize)).toNat) :
    seen (sizes.chunkAt altered j) true = none ∨ seen (sizes.chunkAt altered j) true = some shard := by
  by_cases same : sizes.chunkAt altered j = sizes.chunkAt stored j
  · rw [same,there]
    exact .inr (seen_withChecksum shard true)
  · exact .inl (seen_damaged (detected same))

theorem Holds.seen_truncated (holds : Holds sizes inputBytes stored length) (shorter : altered.length ≤ stored.length)
    (detects : sizes.Detects stored altered) (padding : sizes.Padding inputBytes altered) {k : Nat}
    (inside : k < sizes.dataShards * sizes.blocks) :
    seen (sizes.chunkAt altered (sizes.blocks * sizes.parityShards + k)) (sizes.checkedAt altered.length k) = none ∨
      seen (sizes.chunkAt altered (sizes.blocks * sizes.parityShards + k)) (sizes.checkedAt altered.length k) =
        some (dataShard sizes inputBytes k) := by
  cases checked : sizes.checkedAt altered.length k with
  | true =>
    refine seen_compared ?_ (detects.data k inside checked)
    have there := chunks_data holds.reconstructs holds.fits holds.size (sizes.storedShards length) inside
    have before : k < sizes.storedShards length := by
      rw [← holds.checked_iff]
      rw [SizesInfo.checkedAt,decide_eq_true_iff] at checked
      omega
    rw [dataChunk,if_pos before] at there
    exact holds.chunkAt there
  | false =>
    have order : (sizes.blocks * sizes.parityShards + k) * (crcSize + sizes.shardSize) =
        sizes.parityShards * (crcSize + sizes.shardSize) * sizes.blocks + k * (crcSize + sizes.shardSize) := by ring
    have unread := checked
    rw [SizesInfo.checkedAt,decide_eq_false_iff_not] at unread
    have zeroes : dataShard sizes inputBytes k = List.replicate sizes.shardSize 0 :=
      List.eq_replicate_iff.mpr ⟨length_dataShard (shard_room holds.size inside),padding k inside checked⟩
    rw [seen_unchecked,chunkAt_beyond (data_inside inside) (by omega),List.drop_replicate,Nat.add_sub_cancel_left,zeroes]
    exact .inr rfl

/-- Where only padding is not compared, a block of which enough shards are seen is whole. -/
theorem Holds.whole_truncated (holds : Holds sizes inputBytes stored length) (shorter : altered.length ≤ stored.length)
    (detects : sizes.Detects stored altered) (padding : sizes.Padding inputBytes altered) {block : Nat} (before : block < sizes.blocks)
    (enough : Enough sizes altered block) : Whole sizes inputBytes altered block := by
  obtain ⟨_,count,_⟩ := parityBlock_spec holds.reconstructs holds.fits holds.size before
  refine ⟨?_,enough⟩
  have all : parityBlock sizes inputBytes block =
      (List.range sizes.parityShards).map fun i => (parityBlock sizes inputBytes block).getD i [] := by
    apply List.ext_getElem
    · simp [count]
    · intro i inside _
      simp [inside]
  rw [seenBlock,all,dataBlock]
  apply List.rel_append
  · rw [List.forall₂_map_left_iff,List.forall₂_map_right_iff,List.forall₂_same]
    intro i inside
    exact holds.seen_truncated shorter detects padding (index_inside before (List.mem_range.mp inside))
  · rw [List.forall₂_map_left_iff,List.forall₂_map_right_iff,List.forall₂_same]
    intro i inside
    have index := List.mem_range.mp inside
    have bound : i < (parityBlock sizes inputBytes block).length := count ▸ index
    have there := chunks_parity holds.reconstructs holds.fits holds.size (sizes.storedShards length) before index
    have scaled := Nat.mul_le_mul_right sizes.parityShards (show block + 1 ≤ sizes.blocks from before)
    have step : (block + 1) * sizes.parityShards = block * sizes.parityShards + sizes.parityShards := by ring
    rw [List.getElem?_eq_getElem bound] at there
    rw [List.getD_eq_getElem?_getD,List.getElem?_eq_getElem bound]
    exact seen_compared (holds.chunkAt there) (detects.parity _ (by omega))

end Truncated

section Recognized
variable {rs : ReedSolomon} {r : ReedSolomonCrcECC rs} {input stored altered : List UInt8}

/-- What is left of an input is recognized: too few shards of some block are seen, or the layout is that of the input and the
shards whose checksums are not compared are padding. -/
def ReedSolomonCrcECC.Recognizes (r : ReedSolomonCrcECC rs) (input altered : List UInt8) : Prop :=
  (∃ block < (r.computeSizesFromStored altered.length).blocks, ¬ Enough (r.computeSizesFromStored altered.length) altered block) ∨
  r.computeSizesFromStored altered.length = r.computeSizesFromOriginal input.length ∧
    (r.computeSizesFromOriginal input.length).Padding (inputBuffer (r.computeSizesFromOriginal input.length) input) altered

theorem Decrypt_whole (derived : r.Derived) (short : input.length < 2 ^ 32 - 4)
    (holds : Holds (r.computeSizesFromOriginal input.length) (inputBuffer (r.computeSizesFromOriginal input.length) input) stored input.length)
    (shorter : altered.length ≤ stored.length) (detects : (r.computeSizesFromOriginal input.length).Detects stored altered)
    (same : r.computeSizesFromStored altered.length = r.computeSizesFromOriginal input.length)
    (padding : (r.computeSizesFromOriginal input.length).Padding (inputBuffer (r.computeSizesFromOriginal input.length) input) altered)
    (enough : ∀ block < (r.computeSizesFromOriginal input.length).blocks, Enough (r.computeSizesFromOriginal input.length) altered block) :
    r.Decrypt altered = .ok input := by
  have whole : ∀ block < (r.computeSizesFromOriginal input.length).blocks, Whole _ (inputBuffer _ input) altered block :=
    fun block before => holds.whole_truncated shorter detects padding before (enough block before)
  rw [Decrypt_eq derived.untested holds shorter whole (inputBuffer_prefixed short) same,inputBuffer_drop]

theorem damaged_recognized (rs : ReedSolomon) (overheadPercent : Nat) (reconstructs : rs.Reconstructs) (checks : rs.Checks) :
    ∃ r, newReedSolomonCrcECC rs ⟨overheadPercent,0,false⟩ = .ok r ∧
      ∀ input : List UInt8, input.length < 2 ^ 32 - 4 →
        ∃ stored, r.Encrypt input = .ok stored ∧
          ∀ altered : List UInt8, altered.length ≤ stored.length →
            r.Decrypt altered ≠ .error .panicked ∧
            ((r.computeSizesFromOriginal input.length).Detects stored altered → r.Recognizes input altered →
              r.Decrypt altered = .error .computingECC ∨ r.Decrypt altered = .ok input) := by
  obtain ⟨r,made,derived⟩ := newReedSolomonCrcECC_derived reconstructs.encoder overheadPercent
  refine ⟨r,made,fun input short => ?_⟩
  have fits := fits_original derived short
  obtain ⟨stored,encrypted,holds⟩ := holds_of_Encrypt reconstructs rfl fits
  refine ⟨stored,encrypted,fun altered shorter => ?_⟩
  have bounded : altered.length < 2 ^ 53 :=
    Nat.lt_of_le_of_lt (shorter.trans holds.length_padded.2) (readLengthOf_short derived short)
  rcases Decrypt_cases derived.untested checks (reads_stored derived bounded) with failed | ⟨enough,output,decrypted⟩
  · refine ⟨by simp [failed],fun _ _ => .inl failed⟩
  · refine ⟨by simp [decrypted],fun detects recognized => .inr ?_⟩
    rcases recognized with ⟨block,before,few⟩ | ⟨same,padding⟩
    · exact absurd (enough block before) few
    · exact Decrypt_whole derived short holds shorter detects same padding (same ▸ enough)

theorem damaged_recognized_two_percent :
    ∃ r, newReedSolomonCrcECC interpolationCode ⟨2,0,false⟩ = .ok r ∧
      ∀ input : List UInt8, input.length < 2 ^ 32 - 4 →
        ∃ stored, r.Encrypt input = .ok stored ∧
          ∀ altered : List UInt8, altered.length ≤ stored.length →
            r.Decrypt altered ≠ .error .panicked ∧
            ((r.computeSizesFromOriginal input.length).Detects stored altered → r.Recognizes input altered →
              r.Decrypt altered = .error .computingECC ∨ r.Decrypt altered = .ok input) :=
  damaged_recognized interpolationCode 2 interpolationCode_reconstructs interpolationCode_checks

end Recognized

section Empty
variable {rs : ReedSolomon} {r : ReedSolomonCrcECC rs}

theorem empty_layout : r.computeSizesFromStored 0 = ⟨1,1,6,2,true,r.encSmallFiles⟩ := by
  rw [ReedSolomonCrcECC.computeSizesFromStored,if_pos (Nat.zero_le _),ceilInt_eq (Nat.two_pow_pos 53) (show 0 < smallFilesDataShards + smallFilesParityShards from Nat.succ_pos 7)]
  rfl

theorem small_layout (derived : r.Derived) {length : Nat} (few : length ≤ 2) :
    r.computeSizesFromOriginal length = ⟨1,1,6,2,true,r.encSmallFiles⟩ := by
  have data := derived.dataShards
  rw [ReedSolomonCrcECC.computeSizesFromOriginal]
  simp only [lengthSize,derived.parityInput,smallFilesDataShards,smallFilesParityShards]
  rw [if_pos (by omega),(ceilInt_eq_iff (a := length + 4) (b := 6) (n := 1) (by omega) (by omega)).mpr (by omega)]

/-- Zeroes are not a shard with its checksum. -/
theorem checksum_zero : ofBigEndian (List.replicate 4 0) ≠ (ChecksumIEEE [0]).toNat := by decide +kernel

theorem detects_empty (enc : rs.Encoder) (stored : List UInt8) : SizesInfo.Detects ⟨1,1,6,2,true,enc⟩ stored [] := by
  have zeroes (j : Nat) (inside : j < 8) : SizesInfo.chunkAt ⟨1,1,6,2,true,enc⟩ [] j = List.replicate 5 0 := by
    refine chunkAt_beyond ?_ (Nat.zero_le _)
    simp only [SizesInfo.readLengthOf,crcSize]
    omega
  constructor
  · intro j inside _
    simp only at inside
    rw [zeroes j (by omega)]
    exact checksum_zero
  · intro k inside _ _
    simp only at inside ⊢
    rw [zeroes _ (by omega)]
    exact checksum_zero

/-- Of nothing, six shards of zeroes are seen: what is decoded is the empty input. -/
theorem Decrypt_nil (reconstructs : rs.Reconstructs) (derived : r.Derived) : r.Decrypt [] = .ok [] := by
  have layout := small_layout derived (Nat.zero_le 2)
  have fits : (r.computeSizesFromOriginal 0).Fits 0 := fits_original derived (by decide)
  obtain ⟨stored,_,holds⟩ := @holds_of_Encrypt rs r _ reconstructs [] rfl fits
  have unchecked (k : Nat) : SizesInfo.checkedAt (⟨1,1,6,2,true,r.encSmallFiles⟩ : SizesInfo rs) 0 k = false := by
    rw [SizesInfo.checkedAt,decide_eq_false_iff_not]
    simp only [crcSize]
    omega
  apply Decrypt_whole derived (by decide) holds (Nat.zero_le _)
  · rw [List.length_nil,layout]
    exact detects_empty _ _
  · rw [List.length_nil,layout,empty_layout]
  · rw [List.length_nil,layout]
    intro k _ _ byte member
    rw [dataShard] at member
    have there := List.mem_of_mem_drop (List.mem_of_mem_take member)
    have zeroes : inputBuffer (⟨1,1,6,2,true,r.encSmallFiles⟩ : SizesInfo rs) [] = List.replicate 6 0 := rfl
    rw [zeroes] at there
    exact List.eq_of_mem_replicate there
  · rw [List.length_nil,layout]
    intro block _
    have all : ((List.range 6).map fun i => seen (SizesInfo.chunkAt (⟨1,1,6,2,true,r.encSmallFiles⟩ : SizesInfo rs) [] (1 * 2 + (block * 6 + i)))
        (SizesInfo.checkedAt (⟨1,1,6,2,true,r.encSmallFiles⟩ : SizesInfo rs) 0 (block * 6 + i))).countP Option.isSome = 6 := by
      simp only [unchecked,seen_unchecked]
      rfl
    rw [Enough,seenBlock,List.countP_append]
    simp only [List.length_nil]
    omega

theorem truncated_decrypts : ∃ r, newReedSolomonCrcECC interpolationCode ⟨2,0,false⟩ = .ok r ∧
    ∃ stored, r.Encrypt [7] = .ok stored ∧ (r.computeSizesFromOriginal 1).Detects stored (stored.take 0) ∧
      r.Decrypt (stored.take 0) = .ok [] := by
  obtain ⟨r,made,derived⟩ := newReedSolomonCrcECC_derived interpolationCode_reconstructs.encoder 2
  have fits : (r.computeSizesFromOriginal 1).Fits 1 := fits_original derived (by decide)
  obtain ⟨stored,encrypted,_⟩ := @holds_of_Encrypt interpolationCode r _ interpolationCode_reconstructs [7] rfl fits
  refine ⟨r,made,stored,encrypted,?_,Decrypt_nil interpolationCode_reconstructs derived⟩
  rw [small_layout derived (show 1 ≤ 2 by decide)]
  exact detects_empty _ _

end Empty

end Vbe.ECC
