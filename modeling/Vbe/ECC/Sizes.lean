import Vbe.ECC.ReedSolomonCrc

/-! The sizes of the shards. Below two thresholds padding is stored; the sizes that are
computed from the stored length are those that were computed from the original length. -/
namespace Vbe.ECC
open Vbe.Library.Bytes Vbe.Library.Floats

section Arithmetic

theorem ceilInt_eq {a b : Nat} (small : a < 2 ^ 53) (positive : 0 < b) : ceilInt a b = (a + b - 1) / b := by
  rw [ceilInt,float64,ceil_nearest_div small positive]
  rfl

/-- A ceiling is the number of steps that are needed. -/
theorem ceilInt_eq_iff {a b n : Nat} (small : a < 2 ^ 53) (positive : 0 < b) :
    ceilInt a b = n ↔ a ≤ n * b ∧ n * b < a + b := by
  rw [ceilInt_eq small positive,Nat.div_eq_iff positive]
  constructor
  · intro inside
    omega
  · intro inside
    omega

theorem ceilInt_spec {a b : Nat} (small : a < 2 ^ 53) (positive : 0 < b) :
    a ≤ ceilInt a b * b ∧ ceilInt a b * b < a + b := (ceilInt_eq_iff small positive).mp rfl

theorem between_bounds (val : Nat) {least most : Nat} (ordered : least ≤ most) :
    least ≤ between val least most ∧ between val least most ≤ most := by
  rw [between]
  split
  · omega
  · split
    · omega
    · omega

theorem computeShards_bounds (spaceOverhead : ℚ) :
    128 ≤ (computeShards spaceOverhead).1 ∧ 2 ≤ (computeShards spaceOverhead).2 ∧
      (computeShards spaceOverhead).1 + (computeShards spaceOverhead).2 ≤ 256 := by
  have parity := between_bounds (applyPercent 128 (float32 (spaceOverhead / 100))) (show 1 ≤ 128 by decide)
  have data := between_bounds (applyPercent 2 (float32 (100 / spaceOverhead))) (show 128 ≤ 254 by decide)
  simp only [computeShards]
  split
  · simp only
    omega
  · simp only
    omega

example : computeShards 10 = (128,12) := by decide +kernel

end Arithmetic

section Derived
variable {rs : ReedSolomon}

/-- What holds of the parameters, whatever the overhead. -/
structure ReedSolomonCrcECC.Derived (r : ReedSolomonCrcECC rs) : Prop where
  dataShards : 128 ≤ r.dataShards
  parityShards : 2 ≤ r.parityShards
  shards : r.dataShards + r.parityShards ≤ 256
  least : 64 ≤ r.options.maxShardSize
  most : r.options.maxShardSize ≤ 1024
  parityInput : r.thresholdParityInput = 8 * (r.dataShards + r.parityShards)
  parityOutput : r.thresholdParityOutput = 8 * (4 + ceilInt r.thresholdParityInput 6)
  blocksInput : r.thresholdBlocksInput = r.dataShards * r.options.maxShardSize
  blocksOutput : r.thresholdBlocksOutput = (r.parityShards + r.dataShards) * (4 + r.options.maxShardSize)
  big : rs.New r.dataShards r.parityShards = some r.encBigFiles
  small : rs.New 6 2 = some r.encSmallFiles
  untested : r.options.deleteFirstShardForTests = false

theorem resolvedMaxShardSize_bounds (overheadPercent : Nat) :
    64 ≤ resolvedMaxShardSize ⟨overheadPercent,0,false⟩ ∧ resolvedMaxShardSize ⟨overheadPercent,0,false⟩ ≤ 1024 := by
  simp only [resolvedMaxShardSize,if_true]
  repeat' split
  all_goals omega

theorem newReedSolomonCrcECC_derived (encoders : ∀ d p, 0 < d → d + p ≤ 256 → ∃ enc, rs.New d p = some enc)
    (overheadPercent : Nat) :
    ∃ r, newReedSolomonCrcECC rs ⟨overheadPercent,0,false⟩ = .ok r ∧ r.Derived := by
  have size := resolvedMaxShardSize_bounds overheadPercent
  have shards := computeShards_bounds
    (freeSpaceOverhead overheadPercent (resolvedMaxShardSize ⟨overheadPercent,0,false⟩))
  rw [newReedSolomonCrcECC]
  simp only
  generalize computeShards (freeSpaceOverhead overheadPercent (resolvedMaxShardSize ⟨overheadPercent,0,false⟩)) = counts at *
  obtain ⟨dataShards,parityShards⟩ := counts
  simp only at shards ⊢
  obtain ⟨big,madeBig⟩ := encoders dataShards parityShards (by omega) shards.2.2
  obtain ⟨small,madeSmall⟩ := encoders smallFilesDataShards smallFilesParityShards (by decide) (by decide)
  rw [madeBig,madeSmall]
  refine ⟨_,rfl,?_⟩
  constructor
  · exact shards.1
  · exact shards.2.1
  · exact shards.2.2
  · exact size.1
  · exact size.2
  · rfl
  · simp only [computeFinalFileSizeWithPadding,Nat.mul_one]
    rfl
  · rfl
  · simp only [computeFinalFileSizeWithPadding,Nat.mul_one]
    rfl
  · exact madeBig
  · exact madeSmall
  · rfl

end Derived

section Stored
variable {rs : ReedSolomon} {r : ReedSolomonCrcECC rs}

/-- The bytes of the data that are stored. -/
def SizesInfo.toStore (sizes : SizesInfo rs) (length : Nat) : Nat :=
  if sizes.storePadding then sizes.dataShards * sizes.shardSize * sizes.blocks else lengthSize + length

/-- The shards of the data that are stored, the last one perhaps in part. -/
def SizesInfo.storedShards (sizes : SizesInfo rs) (length : Nat) : Nat :=
  (sizes.toStore length + sizes.shardSize - 1) / sizes.shardSize

def SizesInfo.storedLength (sizes : SizesInfo rs) (length : Nat) : Nat :=
  sizes.blocks * sizes.parityShards * (crcSize + sizes.shardSize) + sizes.toStore length +
    crcSize * sizes.storedShards length

/-- The sizes cover the data, and not a shard of it is left out. -/
structure SizesInfo.Fits (sizes : SizesInfo rs) (length : Nat) : Prop where
  positive : 0 < sizes.shardSize
  blocks : 0 < sizes.blocks
  dataShards : 6 ≤ sizes.dataShards
  covers : lengthSize + length ≤ sizes.dataShards * sizes.shardSize * sizes.blocks
  encoder : rs.New sizes.dataShards sizes.parityShards = some sizes.enc
  shards : sizes.dataShards + sizes.parityShards ≤ 256

/-- The three layouts. -/
theorem computeSizesFromOriginal_cases (derived : r.Derived) (length : Nat) :
    (length + 4 ≤ 8 * (r.dataShards + r.parityShards) ∧
      r.computeSizesFromOriginal length = ⟨1,ceilInt (length + 4) 6,6,2,true,r.encSmallFiles⟩) ∨
    (8 * (r.dataShards + r.parityShards) < length + 4 ∧ length + 4 ≤ r.dataShards * r.options.maxShardSize ∧
      r.computeSizesFromOriginal length =
        ⟨1,ceilInt (length + 4) r.dataShards,r.dataShards,r.parityShards,true,r.encBigFiles⟩) ∨
    (r.dataShards * r.options.maxShardSize < length + 4 ∧
      r.computeSizesFromOriginal length = ⟨ceilInt (length + 4) (r.dataShards * r.options.maxShardSize),
        r.options.maxShardSize,r.dataShards,r.parityShards,false,r.encBigFiles⟩) := by
  have parity := derived.parityInput
  have blocks := derived.blocksInput
  simp only [ReedSolomonCrcECC.computeSizesFromOriginal,lengthSize,parity,blocks]
  split
  next small => exact .inl ⟨small,rfl⟩
  next larger =>
    split
    next medium => exact .inr (.inl ⟨by omega,medium,rfl⟩)
    next large => exact .inr (.inr ⟨by omega,rfl⟩)

/-- What a division into blocks leaves. -/
theorem blocks_spec (derived : r.Derived) {length : Nat} (short : length < 2 ^ 32 - 4) :
    length + 4 ≤ ceilInt (length + 4) (r.dataShards * r.options.maxShardSize) * (r.dataShards * r.options.maxShardSize) ∧
      ceilInt (length + 4) (r.dataShards * r.options.maxShardSize) * (r.dataShards * r.options.maxShardSize) <
        length + 4 + r.dataShards * r.options.maxShardSize := by
  have shards := derived.dataShards
  have least := derived.least
  exact ceilInt_spec (by omega) (Nat.mul_pos (by omega) (by omega))

theorem fits_original (derived : r.Derived) {length : Nat} (short : length < 2 ^ 32 - 4) :
    (r.computeSizesFromOriginal length).Fits length := by
  have shards := derived.dataShards
  have least := derived.least
  rcases computeSizesFromOriginal_cases derived length with ⟨small,sizes⟩ | ⟨_,medium,sizes⟩ | ⟨large,sizes⟩
  · have spec := ceilInt_spec (a := length + 4) (b := 6) (by omega) (by decide)
    rw [sizes]
    refine ⟨?_,Nat.le_refl 1,Nat.le_refl 6,?_,derived.small,by simp⟩
    · simp only
      omega
    · simp only [lengthSize]
      omega
  · have spec := ceilInt_spec (a := length + 4) (b := r.dataShards) (by omega) (by omega)
    rw [sizes]
    refine ⟨?_,Nat.le_refl 1,by simp only; omega,?_,derived.big,derived.shards⟩
    · simp only
      by_contra none
      have zero : ceilInt (length + 4) r.dataShards = 0 := by omega
      rw [zero] at spec
      omega
    · simp only [lengthSize,Nat.mul_one,Nat.mul_comm r.dataShards]
      omega
  · have spec := blocks_spec derived short
    rw [sizes]
    refine ⟨by simp only; omega,?_,by simp only; omega,?_,derived.big,derived.shards⟩
    · simp only
      by_contra none
      have zero : ceilInt (length + 4) (r.dataShards * r.options.maxShardSize) = 0 := by omega
      rw [zero] at spec
      omega
    · simp only [lengthSize]
      rw [Nat.mul_comm]
      omega

theorem storedShards_padding {sizes : SizesInfo rs} {length : Nat} (padding : sizes.storePadding = true)
    (positive : 0 < sizes.shardSize) : sizes.storedShards length = sizes.dataShards * sizes.blocks := by
  rw [SizesInfo.storedShards,SizesInfo.toStore,if_pos padding,Nat.div_eq_iff positive]
  have order : sizes.dataShards * sizes.shardSize * sizes.blocks = sizes.dataShards * sizes.blocks * sizes.shardSize := by ring
  omega

/-- Where padding is stored, the stored length is that of whole shards. -/
theorem storedLength_padding {sizes : SizesInfo rs} {length : Nat} (padding : sizes.storePadding = true)
    (positive : 0 < sizes.shardSize) (single : sizes.blocks = 1) :
    sizes.storedLength length = (sizes.dataShards + sizes.parityShards) * (4 + sizes.shardSize) := by
  rw [SizesInfo.storedLength,storedShards_padding padding positive,SizesInfo.toStore,if_pos padding,single,crcSize]
  ring

theorem stored_small (derived : r.Derived) {length : Nat} (small : length + 4 ≤ 8 * (r.dataShards + r.parityShards)) :
    r.computeSizesFromStored (8 * (4 + ceilInt (length + 4) 6)) = ⟨1,ceilInt (length + 4) 6,6,2,true,r.encSmallFiles⟩ := by
  have shards := derived.shards
  have most := derived.most
  obtain ⟨shardSize,size⟩ : ∃ shardSize, shardSize = ceilInt (length + 4) 6 := ⟨_,rfl⟩
  have spec := ceilInt_spec (a := length + 4) (b := 6) (by omega) (by decide)
  have threshold := ceilInt_spec (a := r.thresholdParityInput) (b := 6) (by rw [derived.parityInput]; omega) (by decide)
  rw [derived.parityInput] at threshold
  rw [← size] at spec ⊢
  have within : 8 * (4 + shardSize) ≤ r.thresholdParityOutput := by
    rw [derived.parityOutput,derived.parityInput]
    omega
  have back : ceilInt (8 * (4 + shardSize)) (smallFilesDataShards + smallFilesParityShards) = 4 + shardSize := by
    rw [ceilInt_eq_iff (by omega) (by decide)]
    simp only [smallFilesDataShards,smallFilesParityShards]
    omega
  have shrunk : max (4 + shardSize) (1 + crcSize) - crcSize = shardSize := by
    simp only [crcSize]
    omega
  rw [ReedSolomonCrcECC.computeSizesFromStored,if_pos within,back,shrunk]
  rfl

theorem stored_medium (derived : r.Derived) {length : Nat} (larger : 8 * (r.dataShards + r.parityShards) < length + 4)
    (medium : length + 4 ≤ r.dataShards * r.options.maxShardSize) (short : length < 2 ^ 32 - 4) :
    r.computeSizesFromStored ((r.dataShards + r.parityShards) * (4 + ceilInt (length + 4) r.dataShards)) =
      ⟨1,ceilInt (length + 4) r.dataShards,r.dataShards,r.parityShards,true,r.encBigFiles⟩ := by
  have data := derived.dataShards
  have shards := derived.shards
  have most := derived.most
  obtain ⟨shardSize,size⟩ : ∃ shardSize, shardSize = ceilInt (length + 4) r.dataShards := ⟨_,rfl⟩
  have spec := ceilInt_spec (a := length + 4) (b := r.dataShards) (by omega) (by omega)
  have threshold := ceilInt_spec (a := r.thresholdParityInput) (b := 6) (by rw [derived.parityInput]; omega) (by decide)
  rw [derived.parityInput] at threshold
  rw [← size] at spec ⊢
  have nine : 9 ≤ shardSize := by
    by_contra few
    have covered : shardSize * r.dataShards ≤ 8 * r.dataShards := Nat.mul_le_mul_right _ (by omega)
    omega
  have fitting : shardSize ≤ r.options.maxShardSize := by
    have less : shardSize * r.dataShards < (r.options.maxShardSize + 1) * r.dataShards := by
      rw [Nat.add_mul,Nat.one_mul,Nat.mul_comm r.options.maxShardSize]
      omega
    exact Nat.le_of_lt_succ (Nat.lt_of_mul_lt_mul_right less)
  have above : ¬ (r.dataShards + r.parityShards) * (4 + shardSize) ≤ r.thresholdParityOutput := by
    have enough : (r.dataShards + r.parityShards) * 13 ≤ (r.dataShards + r.parityShards) * (4 + shardSize) :=
      Nat.mul_le_mul_left _ (by omega)
    rw [derived.parityOutput,derived.parityInput]
    omega
  have within : (r.dataShards + r.parityShards) * (4 + shardSize) ≤ r.thresholdBlocksOutput := by
    rw [derived.blocksOutput,Nat.add_comm r.parityShards]
    exact Nat.mul_le_mul_left _ (by omega)
  have bounded : (r.dataShards + r.parityShards) * (4 + shardSize) ≤ 256 * 1028 :=
    Nat.mul_le_mul shards (by omega)
  have back : ceilInt ((r.dataShards + r.parityShards) * (4 + shardSize)) (r.dataShards + r.parityShards) =
      4 + shardSize := by
    rw [ceilInt_eq_iff (by omega) (by omega),Nat.mul_comm (4 + shardSize)]
    omega
  have shrunk : max (4 + shardSize) (1 + crcSize) - crcSize = shardSize := by
    simp only [crcSize]
    omega
  rw [ReedSolomonCrcECC.computeSizesFromStored,if_neg above,if_pos within,back,shrunk]

/-- Without padding, the data and their checksums fill all blocks but the last, and more. -/
theorem stored_large {data parity shardSize length blocks stored : Nat} (large : data * shardSize < length) (covered : length ≤ blocks * (data * shardSize))
    (tight : blocks * (data * shardSize) < length + data * shardSize)
    (all : length ≤ stored * shardSize) (last : stored * shardSize < length + shardSize) :
    (data + parity) * (4 + shardSize) < blocks * parity * (4 + shardSize) + length + 4 * stored ∧
      blocks * parity * (4 + shardSize) + length + 4 * stored ≤ blocks * ((data + parity) * (4 + shardSize)) ∧
      blocks * ((data + parity) * (4 + shardSize)) <
        blocks * parity * (4 + shardSize) + length + 4 * stored + (data + parity) * (4 + shardSize) := by
  obtain ⟨k,rfl⟩ : ∃ k, blocks = k + 2 := by
    refine ⟨blocks - 2,?_⟩
    have two : 2 ≤ blocks := by
      by_contra few
      have single : blocks * (data * shardSize) ≤ 1 * (data * shardSize) := Nat.mul_le_mul_right _ (by omega)
      omega
    omega
  have upper : stored ≤ (k + 2) * data := by
    have less : stored * shardSize < ((k + 2) * data + 1) * shardSize := by
      rw [Nat.add_mul,Nat.one_mul,Nat.mul_assoc]
      omega
    exact Nat.le_of_lt_succ (Nat.lt_of_mul_lt_mul_right less)
  have lower : (k + 1) * data < stored := by
    have less : (k + 1) * data * shardSize < stored * shardSize := by
      have split : (k + 2) * (data * shardSize) = (k + 1) * data * shardSize + data * shardSize := by ring
      omega
    exact Nat.lt_of_mul_lt_mul_right less
  have wide : (k + 1) * data * shardSize < length := by
    have split : (k + 2) * (data * shardSize) = (k + 1) * data * shardSize + data * shardSize := by ring
    omega
  have parities : (k + 2) * parity * (4 + shardSize) = (k + 1) * (parity * (4 + shardSize)) + parity * (4 + shardSize) := by ring
  have whole : (data + parity) * (4 + shardSize) = 4 * data + data * shardSize + parity * (4 + shardSize) := by ring
  have allBlocks : (k + 2) * ((data + parity) * (4 + shardSize)) =
      4 * ((k + 2) * data) + (k + 2) * (data * shardSize) + (k + 2) * parity * (4 + shardSize) := by ring
  have datas : (k + 2) * data = (k + 1) * data + data := by ring
  have products : (k + 2) * (data * shardSize) = (k + 1) * data * shardSize + data * shardSize := by ring
  have one : data ≤ (k + 1) * data := Nat.le_mul_of_pos_left data (by omega)
  have oneShard : data * shardSize ≤ (k + 1) * data * shardSize := Nat.mul_le_mul_right _ one
  have oneParity : parity * (4 + shardSize) ≤ (k + 1) * (parity * (4 + shardSize)) := Nat.le_mul_of_pos_left _ (by omega)
  refine ⟨?_,?_,?_⟩
  · omega
  · omega
  · omega

theorem sizes_of_stored (derived : r.Derived) {length : Nat} (short : length < 2 ^ 32 - 4) :
    r.computeSizesFromStored ((r.computeSizesFromOriginal length).storedLength length) =
      r.computeSizesFromOriginal length := by
  have fits := fits_original derived short
  rcases computeSizesFromOriginal_cases derived length with ⟨small,sizes⟩ | ⟨larger,medium,sizes⟩ | ⟨large,sizes⟩
  · rw [sizes] at fits ⊢
    rw [storedLength_padding rfl fits.positive rfl]
    exact stored_small derived small
  · rw [sizes] at fits ⊢
    rw [storedLength_padding rfl fits.positive rfl]
    exact stored_medium derived larger medium short
  · have data := derived.dataShards
    have shards := derived.shards
    have least := derived.least
    have most := derived.most
    obtain ⟨covered,tight⟩ := blocks_spec derived short
    rw [sizes] at fits ⊢
    simp only [SizesInfo.storedLength,SizesInfo.storedShards,SizesInfo.toStore,Bool.false_eq_true,if_false,lengthSize,crcSize]
    generalize ceilInt (length + 4) (r.dataShards * r.options.maxShardSize) = blocks at *
    obtain ⟨stored,count⟩ : ∃ stored, stored = (4 + length + r.options.maxShardSize - 1) / r.options.maxShardSize := ⟨_,rfl⟩
    rw [← count]
    have steps := (Nat.div_eq_iff (show 0 < r.options.maxShardSize by omega)).mp count.symm
    obtain ⟨aboveBlocks,upper,lower⟩ := @stored_large r.dataShards r.parityShards r.options.maxShardSize (length + 4) blocks
      stored large covered tight (by omega) (by omega)
    have order : blocks * r.parityShards * (4 + r.options.maxShardSize) + (4 + length) + 4 * stored =
        blocks * r.parityShards * (4 + r.options.maxShardSize) + (length + 4) + 4 * stored := by omega
    rw [order]
    have bounded : (r.dataShards + r.parityShards) * (4 + r.options.maxShardSize) ≤
        4 * (r.dataShards * r.options.maxShardSize) := by
      have product := Nat.mul_le_mul (show r.dataShards + r.parityShards ≤ 2 * r.dataShards by omega)
        (show 4 + r.options.maxShardSize ≤ 2 * r.options.maxShardSize by omega)
      have double : 2 * r.dataShards * (2 * r.options.maxShardSize) = 4 * (r.dataShards * r.options.maxShardSize) := by ring
      omega
    have product : r.dataShards * r.options.maxShardSize ≤ 256 * 1024 := Nat.mul_le_mul (by omega) most
    have total : blocks * ((r.dataShards + r.parityShards) * (4 + r.options.maxShardSize)) ≤
        4 * (blocks * (r.dataShards * r.options.maxShardSize)) := by
      have scaled := Nat.mul_le_mul_left blocks bounded
      have swapped : blocks * (4 * (r.dataShards * r.options.maxShardSize)) =
          4 * (blocks * (r.dataShards * r.options.maxShardSize)) := by ring
      omega
    have threshold := ceilInt_spec (a := r.thresholdParityInput) (b := 6) (by rw [derived.parityInput]; omega) (by decide)
    rw [derived.parityInput] at threshold
    have wide : (r.dataShards + r.parityShards) * 68 ≤ (r.dataShards + r.parityShards) * (4 + r.options.maxShardSize) :=
      Nat.mul_le_mul_left _ (by omega)
    have aboveParity : ¬ blocks * r.parityShards * (4 + r.options.maxShardSize) + (length + 4) + 4 * stored ≤
        r.thresholdParityOutput := by
      rw [derived.parityOutput,derived.parityInput]
      omega
    have above : ¬ blocks * r.parityShards * (4 + r.options.maxShardSize) + (length + 4) + 4 * stored ≤
        r.thresholdBlocksOutput := by
      rw [derived.blocksOutput,Nat.add_comm r.parityShards]
      omega
    have back : ceilInt (blocks * r.parityShards * (4 + r.options.maxShardSize) + (length + 4) + 4 * stored)
        ((r.dataShards + r.parityShards) * (4 + r.options.maxShardSize)) = blocks := by
      rw [ceilInt_eq_iff (by omega) (by omega)]
      exact ⟨upper,lower⟩
    rw [ReedSolomonCrcECC.computeSizesFromStored,if_neg aboveParity,if_neg above,crcSize,back]

end Stored

end Vbe.ECC
