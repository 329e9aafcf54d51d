import Vbe.Library.Bytes
import Vbe.Library.Checksums
import Vbe.Library.Floats

/-! Error correction by Reed-Solomon codes over shards with checksums. The package that
computes the codes is a parameter. Slice expressions out of range are an error of their own. -/
namespace Vbe.ECC
open Vbe.Library.Bytes Vbe.Library.Checksums Vbe.Library.Floats

abbrev Shard := List UInt8

inductive ECCError
  | newEncoder
  | computingECC
  /-- A slice expression out of range. -/
  | panicked
deriving DecidableEq

/-- An encoder computes the parity shards of some data shards, and fills in missing data shards. -/
structure ReedSolomon where
  Encoder : Type
  New : Nat → Nat → Option Encoder
  Encode : Encoder → List Shard → Option (List Shard)
  ReconstructData : Encoder → List (Option Shard) → Option (List (Option Shard))

/-- Parity shards are as long as data shards, and from as many shards as there are data shards
the data shards are found. -/
structure ReedSolomon.Reconstructs (rs : ReedSolomon) : Prop where
  encoder : ∀ d p, 0 < d → d + p ≤ 256 → ∃ enc, rs.New d p = some enc
  encodes : ∀ d p enc, rs.New d p = some enc → ∀ size data, 0 < size → data.length = d → (∀ shard ∈ data, shard.length = size) →
    ∃ parity, rs.Encode enc data = some parity ∧ parity.length = p ∧ ∀ shard ∈ parity, shard.length = size
  reconstructs : ∀ d p enc, rs.New d p = some enc → ∀ size data parity, 0 < size → data.length = d →
    (∀ shard ∈ data, shard.length = size) → rs.Encode enc data = some parity →
    ∀ shards, List.Forall₂ (fun shard whole => shard = none ∨ shard = some whole) shards (data ++ parity) →
    d ≤ shards.countP Option.isSome → ∃ rest, rs.ReconstructData enc shards = some (data.map some ++ rest)

section Options

structure Options where
  overheadPercent : Nat
  maxShardSize : Nat
  deleteFirstShardForTests : Bool

def lengthSize : Nat := 4
def crcSize : Nat := 4
def smallFilesDataShards : Nat := 6
def smallFilesParityShards : Nat := 2

def float32 (q : ℚ) : ℚ := nearest 24 q
def float64 (q : ℚ) : ℚ := nearest 53 q

def between (val minValue maxValue : Nat) : Nat :=
  if val < minValue then minValue else if val > maxValue then maxValue else val

def applyPercent (val : Nat) (percent : ℚ) : Nat := ⌊float64 (val * percent)⌋.toNat

def ceilInt (a b : Nat) : Nat := ⌈float64 ((a : ℚ) / b)⌉.toNat

def computeShards (spaceOverhead : ℚ) : Nat × Nat :=
  let data := 128
  let parity := between (applyPercent data (float32 (spaceOverhead / 100))) 1 128
  if parity = 1 then (between (applyPercent 2 (float32 (100 / spaceOverhead))) 128 254,2)
  else (data,parity)

def computeFinalFileSizeWithPadding (dataShards parityShards shardSize blocks : Nat) : Nat :=
  (parityShards + dataShards) * (crcSize + shardSize) * blocks

end Options

variable (rs : ReedSolomon)

structure ReedSolomonCrcECC where
  options : Options
  dataShards : Nat
  parityShards : Nat
  thresholdParityInput : Nat
  thresholdParityOutput : Nat
  thresholdBlocksInput : Nat
  thresholdBlocksOutput : Nat
  encSmallFiles : rs.Encoder
  encBigFiles : rs.Encoder

structure SizesInfo where
  blocks : Nat
  shardSize : Nat
  dataShards : Nat
  parityShards : Nat
  storePadding : Bool
  enc : rs.Encoder

section Parameters

def resolvedMaxShardSize (opts : Options) : Nat :=
  if opts.maxShardSize = 0 then
    if opts.overheadPercent = 1 then 1024
    else if opts.overheadPercent = 2 then 512
    else if opts.overheadPercent = 3 then 256
    else if opts.overheadPercent ≤ 6 then 128
    else 64
  else opts.maxShardSize

/-- The overhead that the checksums leave for the parity shards. -/
def freeSpaceOverhead (overheadPercent maxShardSize : Nat) : ℚ :=
  let free := float32 (float32 overheadPercent - float32 (100 * crcSize / float32 maxShardSize))
  if free ≥ float32 (1 / 100) then free else float32 (1 / 100)

def newReedSolomonCrcECC (opts : Options) : Except ECCError (ReedSolomonCrcECC rs) :=
  let maxShardSize := resolvedMaxShardSize opts
  let (dataShards,parityShards) := computeShards (freeSpaceOverhead opts.overheadPercent maxShardSize)
  let thresholdParityInput := 2 * crcSize * (dataShards + parityShards)
  match rs.New dataShards parityShards,rs.New smallFilesDataShards smallFilesParityShards with
  | some big,some small => .ok {
      options := {opts with maxShardSize := maxShardSize}
      dataShards := dataShards
      parityShards := parityShards
      thresholdParityInput := thresholdParityInput
      thresholdParityOutput := computeFinalFileSizeWithPadding smallFilesDataShards smallFilesParityShards
        (ceilInt thresholdParityInput smallFilesDataShards) 1
      thresholdBlocksInput := dataShards * maxShardSize
      thresholdBlocksOutput := computeFinalFileSizeWithPadding dataShards parityShards maxShardSize 1
      encSmallFiles := small
      encBigFiles := big}
  | _,_ => .error .newEncoder

variable {rs}

def ReedSolomonCrcECC.computeSizesFromOriginal (r : ReedSolomonCrcECC rs) (length : Nat) : SizesInfo rs :=
  let length := length + lengthSize
  if length ≤ r.thresholdParityInput then
    ⟨1,ceilInt length smallFilesDataShards,smallFilesDataShards,smallFilesParityShards,true,r.encSmallFiles⟩
  else if length ≤ r.thresholdBlocksInput then
    ⟨1,ceilInt length r.dataShards,r.dataShards,r.parityShards,true,r.encBigFiles⟩
  else
    ⟨ceilInt length (r.dataShards * r.options.maxShardSize),r.options.maxShardSize,r.dataShards,r.parityShards,false,
      r.encBigFiles⟩

def ReedSolomonCrcECC.computeSizesFromStored (r : ReedSolomonCrcECC rs) (length : Nat) : SizesInfo rs :=
  if length ≤ r.thresholdParityOutput then
    ⟨1,max (ceilInt length (smallFilesDataShards + smallFilesParityShards)) (1 + crcSize) - crcSize,smallFilesDataShards,
      smallFilesParityShards,true,r.encSmallFiles⟩
  else if length ≤ r.thresholdBlocksOutput then
    ⟨1,max (ceilInt length (r.dataShards + r.parityShards)) (1 + crcSize) - crcSize,r.dataShards,r.parityShards,true,
      r.encBigFiles⟩
  else
    ⟨ceilInt length ((r.dataShards + r.parityShards) * (crcSize + r.options.maxShardSize)),r.options.maxShardSize,
      r.dataShards,r.parityShards,false,r.encBigFiles⟩

end Parameters

section Buffers

/-- `b[from:from+size]` -/
def section' (b : List UInt8) (position size : Nat) : Except ECCError (List UInt8) :=
  if position + size ≤ b.length then .ok ((b.drop position).take size) else .error .panicked

/-- A buffer of some size that starts with these bytes and is cleared behind them. -/
def padded (b : List UInt8) (size : Nat) : List UInt8 := b ++ List.replicate (size - b.length) 0

def crcBytes (shard : Shard) : List UInt8 := toBigEndian crcSize (ChecksumIEEE shard).toNat

end Buffers

section Encrypt
variable {rs}

/-- The checksums and parity shards of one block. -/
def SizesInfo.parityOfBlock (sizes : SizesInfo rs) (inputBytes : List UInt8) (block : Nat) : Except ECCError (List UInt8) := do
  let shards ← (List.range sizes.dataShards).mapM fun i => section' inputBytes
    ((block * sizes.dataShards + i) * sizes.shardSize) sizes.shardSize
  match rs.Encode sizes.enc shards with
  | none => .error .computingECC
  | some parity => .ok (parity.flatMap fun shard => crcBytes shard ++ shard)

/-- The loop that stores the data from a position on. -/
def SizesInfo.storeData (sizes : SizesInfo rs) (inputBytes : List UInt8) (inputSizeToStore inputPos : Nat) :
    Except ECCError (List UInt8) :=
  if inputPos < inputSizeToStore then
    -- an empty shard would never end the loop
    if sizes.shardSize = 0 then .error .panicked
    else do
      let left := min (inputSizeToStore - inputPos) sizes.shardSize
      let shard ← section' inputBytes inputPos sizes.shardSize
      let rest ← sizes.storeData inputBytes inputSizeToStore (inputPos + sizes.shardSize)
      return crcBytes shard ++ shard.take left ++ rest
  else .ok []
termination_by inputSizeToStore - inputPos

def ReedSolomonCrcECC.Encrypt (r : ReedSolomonCrcECC rs) (input : List UInt8) : Except ECCError (List UInt8) := do
  let sizes := r.computeSizesFromOriginal input.length
  let inputBytes := padded (toBigEndian lengthSize input.length ++ input)
    (sizes.dataShards * sizes.shardSize * sizes.blocks)
  let ecc ← (List.range sizes.blocks).mapM (sizes.parityOfBlock inputBytes)
  let inputSizeToStore := if sizes.storePadding then inputBytes.length else lengthSize + input.length
  let data ← sizes.storeData inputBytes inputSizeToStore 0
  return ecc.flatten ++ data

end Encrypt

section Decrypt
variable {rs}

/-- A shard with its checksum, which is compared where `checked` says so. -/
def readShard (bytes : List UInt8) (position size : Nat) (checked : Bool) : Except ECCError (Option Shard) := do
  let crc ← section' bytes position crcSize
  let shard ← section' bytes (position + crcSize) size
  return if checked && ofBigEndian crc != (ChecksumIEEE shard).toNat then none else some shard

/-- A shard that is not missing. -/
def present (shards : List (Option Shard)) (i : Nat) : Except ECCError Shard :=
  match shards[i]? with
  | some (some shard) => .ok shard
  | _ => .error .panicked

/-- The length that is stored in front of the data, and where the data goes on: in which shard and at which byte. -/
def SizesInfo.readLength (sizes : SizesInfo rs) (shards : List (Option Shard)) : Except ECCError (Nat × Nat × Nat) := do
  match sizes.shardSize with
  | 1 =>
    let lengthBuffer ← (List.range 4).mapM fun i => do section' (← present shards i) 0 1
    return (ofBigEndian lengthBuffer.flatten,4,0)
  | 2 =>
    let first ← present shards 0
    let second ← present shards 1
    return (ofBigEndian (first ++ second),2,0)
  | 3 =>
    let first ← present shards 0
    let second ← present shards 1
    return (ofBigEndian (first ++ second.take 1),1,1)
  | 4 =>
    let first ← present shards 0
    return (ofBigEndian first,1,0)
  | _ =>
    let first ← present shards 0
    let lengthBuffer ← section' first 0 4
    return (ofBigEndian lengthBuffer,0,4)

/-- The loop that copies the data of one block, from a byte of the first of the shards on. -/
def SizesInfo.copyShards (sizes : SizesInfo rs) (originalSize : Nat) :
    List (Option Shard) → Nat → Nat → Except ECCError (Nat × List UInt8)
  | [],_,writeOriginalPos => .ok (writeOriginalPos,[])
  | shard :: shards,startByte,writeOriginalPos =>
    if writeOriginalPos < originalSize then do
      let left := min (originalSize - writeOriginalPos) (sizes.shardSize - startByte)
      let shard ← present [shard] 0
      let output ← section' shard startByte left
      let (written,rest) ← sizes.copyShards originalSize shards 0 (writeOriginalPos + left)
      return (written,output ++ rest)
    else .ok (writeOriginalPos,[])

structure Decoding where
  originalSize : Nat
  writeOriginalPos : Nat
  output : List UInt8

/-- The shards of a block, the data shards first; damaged ones are missing. -/
def SizesInfo.readBlock (sizes : SizesInfo rs) (eccBytes dataBytes : List UInt8) (paddingStartPos : Int) (block : Nat) :
    Except ECCError (List (Option Shard)) := do
  let data ← (List.range sizes.dataShards).mapM fun i =>
    let dataPos := (block * sizes.dataShards + i) * (crcSize + sizes.shardSize)
    readShard dataBytes dataPos sizes.shardSize (decide ((dataPos : Int) < paddingStartPos))
  let parity ← (List.range sizes.parityShards).mapM fun i =>
    readShard eccBytes ((block * sizes.parityShards + i) * (crcSize + sizes.shardSize)) sizes.shardSize true
  return data ++ parity

def ReedSolomonCrcECC.decryptBlock (r : ReedSolomonCrcECC rs) (sizes : SizesInfo rs) (eccBytes dataBytes : List UInt8)
    (paddingStartPos : Int) (d : Decoding) (block : Nat) : Except ECCError Decoding := do
  let shards ← sizes.readBlock eccBytes dataBytes paddingStartPos block
  let shards := if r.options.deleteFirstShardForTests then shards.set 0 none else shards
  match rs.ReconstructData sizes.enc shards with
  | none => .error .computingECC
  | some shards => do
    let (originalSize,startShard,startByte) ←
      if block = 0 then sizes.readLength shards else .ok (d.originalSize,0,0)
    let (written,output) ← sizes.copyShards originalSize ((shards.take sizes.dataShards).drop startShard) startByte d.writeOriginalPos
    return ⟨originalSize,written,d.output ++ output⟩

def ReedSolomonCrcECC.Decrypt (r : ReedSolomonCrcECC rs) (input : List UInt8) : Except ECCError (List UInt8) := do
  let sizes := r.computeSizesFromStored input.length
  let dataPlusCrcSizeInBlock := sizes.dataShards * (crcSize + sizes.shardSize)
  let parityPlusCrcSizeInBlock := sizes.parityShards * (crcSize + sizes.shardSize)
  let inputBytes := padded input ((dataPlusCrcSizeInBlock + parityPlusCrcSizeInBlock) * sizes.blocks)
  let eccBytes := inputBytes.take (parityPlusCrcSizeInBlock * sizes.blocks)
  let dataBytes := inputBytes.drop (parityPlusCrcSizeInBlock * sizes.blocks)
  let paddingStartPos : Int := input.length - (parityPlusCrcSizeInBlock * sizes.blocks : Nat)
  let decoded ← (List.range sizes.blocks).foldlM (r.decryptBlock sizes eccBytes dataBytes paddingStartPos) ⟨0,0,[]⟩
  return decoded.output

end Decrypt

end Vbe.ECC
