import Vbe.Index.Id
import Vbe.Library.Probing
import Vbe.Library.Varints

/-! A hash table whose keys and values are packed in large segments of memory, with eight bytes of its own for each key.
A call that panics, or that would search its table for ever, has no result. Sizes of tables are below `2^63`, so that
sums of slots do not wrap. -/
namespace Vbe.Bigmap
open Vbe.Index (Bytes)
open Vbe.Library.Bytes Vbe.Library.Varints Vbe.Library.Probing

def defaultNumMemorySegments : Nat := 8
def defaultMemorySegmentSize : Nat := 18 * 1000000
def defaultFileSegmentSize : Nat := 1024 <<< 20
def defaultInitialSizeLogarithm : Nat := 20
def defaultLoadFactorPercentage : Nat := 75
def minKeyLength : Nat := 4
def maxKeyLength : Nat := 255
def minSizeLogarithm : Nat := 8
def MaxVarintLen32 : Nat := 5

structure Options where
  LoadFactorPercentage : Nat
  NumMemorySegments : Nat
  MemorySegmentSize : Nat
  FileSegmentSize : Nat
  InitialSizeLogarithm : Nat

def tableSizesPrimes : List Nat :=
  [2 ^ 8 - 59,2 ^ 9 - 55,2 ^ 10 - 57,2 ^ 11 - 61,2 ^ 12 - 77,2 ^ 13 - 91,2 ^ 14 - 111,2 ^ 15 - 135,2 ^ 16 - 123,
    2 ^ 17 - 99,2 ^ 18 - 93,2 ^ 19 - 87,2 ^ 20 - 185,2 ^ 21 - 129,2 ^ 22 - 123,2 ^ 23 - 159,2 ^ 24 - 167,2 ^ 25 - 183,
    2 ^ 26 - 135,2 ^ 27 - 235,2 ^ 28 - 273,2 ^ 29 - 133,2 ^ 30 - 173,2 ^ 31 - 171,2 ^ 32 - 267,2 ^ 33 - 355,
    2 ^ 34 - 281,2 ^ 35 - 325,2 ^ 36 - 233,2 ^ 37 - 375,2 ^ 38 - 257,2 ^ 39 - 301,2 ^ 40 - 437,2 ^ 41 - 139,
    2 ^ 42 - 227,2 ^ 43 - 369,2 ^ 44 - 377,2 ^ 45 - 229,2 ^ 46 - 311,2 ^ 47 - 649,2 ^ 48 - 257,2 ^ 49 - 339,
    2 ^ 50 - 233,2 ^ 51 - 439,2 ^ 52 - 395,2 ^ 53 - 421,2 ^ 54 - 327,2 ^ 55 - 267,2 ^ 56 - 195,2 ^ 57 - 423,
    2 ^ 58 - 251,2 ^ 59 - 871,2 ^ 60 - 453,2 ^ 61 - 465,2 ^ 62 - 273,2 ^ 63 - 471]

def uint32 (n : Nat) : Nat := n % 2 ^ 32

/-- What the operating system and the allocator decide: whether the file of the segment with this index can be mapped,
and the capacity that `append` gives to a slice when it has to move it. -/
structure Runtime where
  maps : Nat → Bool
  grown : Nat → Nat → Nat
  enough : ∀ cap needed, needed ≤ grown cap needed

/-- A slice of bytes. The bytes of its array behind it are zero. -/
structure Segment where
  bytes : Bytes
  cap : Nat
  within : bytes.length ≤ cap

def Segment.make (cap : Nat) : Segment := ⟨[],cap,Nat.zero_le cap⟩

def Segment.append (os : Runtime) (s : Segment) (added : Bytes) : Segment :=
  if fits : s.bytes.length + added.length ≤ s.cap then ⟨s.bytes ++ added,s.cap,by simpa using fits⟩
  else ⟨s.bytes ++ added,os.grown s.cap (s.bytes.length + added.length),by simpa using os.enough _ _⟩

/-- The slice from `low` to `high`, which may go up to the capacity. -/
def Segment.slice (s : Segment) (low high : Nat) : Option Bytes :=
  if low ≤ high ∧ high ≤ s.cap then some (((s.bytes.drop low).take (high - low)).rightpad (high - low) 0) else none

/-- The slice from `low` to the end. -/
def Segment.suffixFrom (s : Segment) (low : Nat) : Option Bytes :=
  if low ≤ s.bytes.length then some (s.bytes.drop low) else none

/-- A slot of the table, which is empty where the segment is 0. Other segments are one more than their index. -/
structure Entry where
  segment : Nat
  offset : Nat
deriving DecidableEq

structure InternalMap where
  hasValues : Bool
  opts : Options
  tableSizeIndex : Nat
  segments : List Segment
  slots : List Entry
  count : Nat
  h2Prime : Nat

def Uint32 (b : Bytes) : Option Nat := if 4 ≤ b.length then some (ofBigEndian (b.take 4)) else none
def Uint64 (b : Bytes) : Option Nat := if 8 ≤ b.length then some (ofBigEndian (b.take 8)) else none

def hashValue (key : Bytes) : Option Nat := if key.length < 8 then Uint32 key else Uint64 key

def h2 (key : Bytes) : Option Nat := if key.length < 16 then some 1 else Uint64 (key.drop 8)

namespace InternalMap
variable (os : Runtime) (m : InternalMap)

/-- The key that `keyEquals` reads at an entry. -/
def keyAt (e : Entry) : Option Bytes := do
  let data ← m.segments[e.segment - 1]?
  let keyLen ← data.bytes[e.offset]?
  data.slice (uint32 (e.offset + 1)) (uint32 (e.offset + 1 + keyLen.toNat))

def keyEquals (e : Entry) (key : Bytes) : Option Bool := do
  let stored ← m.keyAt e
  return key == stored

def findSlotInSlice (key : Bytes) (slots : List Entry) (h2Prime : Nat) : Option Nat := do
  let hash ← hashValue key
  let h ← h2 key
  let delta := if h % h2Prime = 0 then 1 else h % h2Prime
  walk (fun e => if e.segment = 0 then some true else m.keyEquals e key) slots delta slots.length
    (hash % slots.length)

def findSlot (key : Bytes) : Option Nat := m.findSlotInSlice key m.slots m.h2Prime

def Contains (key : Bytes) : Option Bool := do
  let slot ← m.findSlot key
  let e ← m.slots[slot]?
  return e.segment != 0

def Get (buf key : Bytes) : Option (Bytes × Bool) := do
  let slot ← m.findSlot key
  let e ← m.slots[slot]?
  if e.segment = 0 then return ([],false)
  if !m.hasValues then return ([],true)
  let data ← m.segments[e.segment - 1]?
  let keyLen ← data.bytes[e.offset]?
  let off := uint32 (e.offset + keyLen.toNat + 1)
  let (vlen,vlenLen) := uvarint (← data.suffixFrom off)
  let start := ((off + vlenLen) % 2 ^ 32).toNat
  let value ← data.slice start (uint32 (start + uint32 vlen))
  return (buf ++ value,true)

/-- The loop of `growLocked` over the records of a segment, from position `p`. Each takes at least a byte, so a segment
has no more of them than bytes. -/
def reinsert (segNum : Nat) (seg : Segment) (newH2Prime : Nat) : Nat → Nat → List Entry → Option (List Entry)
  | 0, _, newSlots => some newSlots
  | fuel + 1, p, newSlots =>
    match seg.bytes[p]? with
    | none => some newSlots
    | some keyLen =>
      if keyLen = 0 then some newSlots
      else do
        let key ← seg.slice (p + 1) (p + 1 + keyLen.toNat)
        let next := p + key.length + 1
        let next ← if m.hasValues then do
            let (vlen,vlenLen) := uvarint (← seg.suffixFrom next)
            pure (next + vlenLen + vlen).toNat
          else pure next
        let slot ← m.findSlotInSlice key newSlots newH2Prime
        reinsert segNum seg newH2Prime fuel next (newSlots.set slot ⟨uint32 (segNum + 1),uint32 p⟩)

def growLocked (newSize : Nat) : Option InternalMap := do
  let newH2Prime := m.slots.length
  let newSlots ← m.segments.zipIdx.foldlM
    (fun newSlots (seg,segNum) => m.reinsert segNum seg newH2Prime seg.bytes.length 0 newSlots)
    (List.replicate newSize ⟨0,0⟩)
  return { m with h2Prime := newH2Prime,slots := newSlots }

def newSegment : Segment :=
  if m.segments.length ≥ m.opts.NumMemorySegments ∧ os.maps m.segments.length then Segment.make m.opts.FileSegmentSize
  else Segment.make m.opts.MemorySegmentSize

/-- Whether the table has to grow before another key. The product is an `int`. -/
def Full : Prop := (m.count : Int) ≥ (Int.bmod (m.slots.length * m.opts.LoadFactorPercentage) (2 ^ 64)).tdiv 100

instance decidableFull : Decidable m.Full := inferInstanceAs (Decidable (_ ≥ _))

/-- The slot for a new key, in a table that has grown where it was full. -/
def slotFor (key : Bytes) (slot : Nat) : Option (InternalMap × Nat) :=
  if m.Full then do
    let newSize ← tableSizesPrimes[m.tableSizeIndex + 1]?
    let m ← { m with tableSizeIndex := m.tableSizeIndex + 1 }.growLocked newSize
    let slot ← m.findSlot key
    return (m,slot)
  else return (m,slot)

def payloadLength (key value : Bytes) : Nat := 1 + key.length + MaxVarintLen32 + value.length

/-- A new segment is started where the last one has not enough room. -/
def roomFor (key value : Bytes) : Option InternalMap := do
  let current ← m.segments.getLast?
  if current.bytes.length + payloadLength key value > current.cap then
    return { m with segments := m.segments ++ [m.newSegment os] }
  else return m

/-- The record is added to the last segment. -/
def store (slot : Nat) (key value : Bytes) : Option InternalMap := do
  let current ← m.segments.getLast?
  let koff := uint32 current.bytes.length
  let current := (current.append os [UInt8.ofNat key.length]).append os key
  let vlen := putUvarint (UInt64.ofNat value.length)
  if m.hasValues ∧ vlen.length > MaxVarintLen32 then none
  else
    let current := if m.hasValues then (current.append os vlen).append os value else current
    return { m with segments := m.segments.set (m.segments.length - 1) current,count := m.count + 1,
                    slots := m.slots.set slot ⟨uint32 m.segments.length,koff⟩ }

def PutIfAbsent (key value : Bytes) : Option (InternalMap × Bool) :=
  if key.length < minKeyLength then none
  else if key.length > maxKeyLength then none
  else if !m.hasValues ∧ value.length > 0 then none
  else do
    let slot ← m.findSlot key
    let e ← m.slots[slot]?
    if e.segment ≠ 0 then return (m,false)
    let (m,slot) ← m.slotFor key slot
    let m ← m.roomFor os key value
    let m ← m.store os slot key value
    return (m,true)

end InternalMap

def Options.withDefaults (opts : Options) : Options where
  LoadFactorPercentage :=
    if opts.LoadFactorPercentage = 0 then defaultLoadFactorPercentage else opts.LoadFactorPercentage
  NumMemorySegments := if opts.NumMemorySegments = 0 then defaultNumMemorySegments else opts.NumMemorySegments
  MemorySegmentSize := if opts.MemorySegmentSize = 0 then defaultMemorySegmentSize else opts.MemorySegmentSize
  FileSegmentSize := if opts.FileSegmentSize = 0 then defaultFileSegmentSize else opts.FileSegmentSize
  InitialSizeLogarithm :=
    if opts.InitialSizeLogarithm = 0 then defaultInitialSizeLogarithm else opts.InitialSizeLogarithm

/-- The options that are used where none are given. -/
def Options.zero : Options := ⟨0,0,0,0,0⟩

/-- There is no map where the initial size is invalid, or above all table sizes. -/
def newInternalMapWithOptions (os : Runtime) (hasValues : Bool) (opts : Option Options) : Option InternalMap := do
  let opts := (opts.getD Options.zero).withDefaults
  let tableSizeIndex := opts.InitialSizeLogarithm - minSizeLogarithm
  if tableSizeIndex < 1 then none
  else
    let m : InternalMap := ⟨hasValues,opts,tableSizeIndex,[],List.replicate (← tableSizesPrimes[tableSizeIndex]?) ⟨0,0⟩,0,
      ← tableSizesPrimes[tableSizeIndex - 1]?⟩
    return { m with segments := [m.newSegment os] }

end Vbe.Bigmap
