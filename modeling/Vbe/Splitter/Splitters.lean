import Vbe.Library.Cuts

/-! The splitters of objects. The package of rolling hashes is a parameter; a splitter of one
kind is its state with the functions of its type. -/
namespace Vbe.Splitter
open Vbe.Library.Cuts

def splitterSlidingWindowSize : Nat := 64

/-- A factory makes splitters of one type. `NextSplitPoint` answers `none` for −1. -/
structure Factory where
  State : Type
  make : State
  NextSplitPoint : State → List UInt8 → State × Option Nat
  MaxSegmentSize : State → Nat
  Reset : State → State

section Hashes

structure RollingHash (W : Type) where
  State : Type
  New : State
  Reset : State → State
  Write : State → List UInt8 → State
  Roll : State → UInt8 → State
  Sum : State → W

variable {W : Type} (hash : RollingHash W)

def RollingHash.rolls (rh : hash.State) (b : List UInt8) : hash.State :=
  b.foldl hash.Roll rh

/-- A window of zeroes is written before anything is rolled. -/
def RollingHash.initial : hash.State :=
  hash.Write hash.New (List.replicate splitterSlidingWindowSize 0)

/-- The sum depends on the bytes that the window holds, and a reset hash is like a new one. -/
structure RollingHash.Windowed : Prop where
  window : ∀ before other w, w.length = splitterSlidingWindowSize →
    hash.Sum (hash.rolls hash.initial (before ++ w)) = hash.Sum (hash.rolls hash.initial (other ++ w))
  reset : ∀ rh b, hash.Sum (hash.rolls (hash.Write (hash.Reset rh) (List.replicate splitterSlidingWindowSize 0)) b) =
    hash.Sum (hash.rolls hash.initial b)

@[simp] theorem RollingHash.rolls_nil (rh : hash.State) : hash.rolls rh [] = rh := rfl

@[simp] theorem RollingHash.rolls_cons (rh : hash.State) (x : UInt8) (b : List UInt8) :
    hash.rolls rh (x :: b) = hash.rolls (hash.Roll rh x) b := rfl

theorem RollingHash.rolls_append (rh : hash.State) (b c : List UInt8) :
    hash.rolls rh (b ++ c) = hash.rolls (hash.rolls rh b) c := List.foldl_append

end Hashes

section Rolling
variable {W : Type} (hash : RollingHash W) (matched : W → W → Bool)

structure RollingSplitter (H W : Type) where
  rh : H
  mask : W
  count : Nat
  minSize : Nat
  maxSize : Nat

namespace RollingSplitter

def Reset (rs : RollingSplitter hash.State W) : RollingSplitter hash.State W :=
  {rs with rh := hash.Write (hash.Reset rs.rh) (List.replicate splitterSlidingWindowSize 0),count := 0}

/-- The bytes that are taken without a test, below `minSize`. -/
def fastPathBytes (rs : RollingSplitter hash.State W) (b : List UInt8) : Nat :=
  let left := rs.minSize - rs.count - 1
  if left > 0 then (if left > b.length then b.length else left) else 0

/-- The tested bytes: the number of bytes up to the first that matches, and the count there. -/
def rollUntil (mask : W) : hash.State → Nat → Nat → List UInt8 → hash.State × Nat × Option Nat
  | rh,count,_,[] => (rh,count,none)
  | rh,count,i,x :: b =>
    if matched (hash.Sum (hash.Roll rh x)) mask then (hash.Roll rh x,0,some (i + 1))
    else rollUntil mask (hash.Roll rh x) (count + 1) (i + 1) b

/-- The last test, for segments that have reached the maximum. -/
def splitAtMax (rs : RollingSplitter hash.State W) (n : Nat) : RollingSplitter hash.State W × Option Nat :=
  if rs.count ≥ rs.maxSize then ({rs with count := 0},some n) else (rs,none)

/-- The part of a buffer behind what was skipped. -/
def nextTested (rs : RollingSplitter hash.State W) (fast : Nat) (b : List UInt8) :
    RollingSplitter hash.State W × Option Nat :=
  let left := rs.maxSize - rs.count
  if left > 0 then
    let fp := if left ≥ b.length then b.length else left
    match rollUntil hash matched rs.mask rs.rh rs.count 0 (b.take fp) with
    | (rh,count,some i) => ({rs with rh := rh,count := count},some (fast + i))
    | (rh,count,none) => splitAtMax hash {rs with rh := rh,count := count} (fast + fp)
  else splitAtMax hash rs fast

def NextSplitPoint (rs : RollingSplitter hash.State W) (b : List UInt8) :
    RollingSplitter hash.State W × Option Nat :=
  let fast := rs.fastPathBytes hash b
  -- only the end of what is skipped is hashed
  let skipped := {rs with
    rh := hash.rolls rs.rh ((b.take fast).drop (fast - splitterSlidingWindowSize))
    count := rs.count + fast}
  skipped.nextTested hash matched fast (b.drop fast)

end RollingSplitter

def rollingFactory (mask : W) (minSize maxSize : Nat) : Factory where
  State := RollingSplitter hash.State W
  make := ⟨hash.initial,mask,0,minSize,maxSize⟩
  NextSplitPoint := RollingSplitter.NextSplitPoint hash matched
  MaxSegmentSize := RollingSplitter.maxSize
  Reset := RollingSplitter.Reset hash

end Rolling

def newBuzHash32SplitterFactory (hash : RollingHash UInt32) (avgSize : Nat) : Factory :=
  rollingFactory hash (fun sum mask => sum &&& mask == 0) (UInt32.ofNat (avgSize - 1)) (avgSize / 2) (avgSize * 2)

def newRabinKarp64SplitterFactory (hash : RollingHash UInt64) (avgSize : Nat) : Factory :=
  rollingFactory hash (fun sum mask => sum &&& mask == 0) (UInt64.ofNat (avgSize - 1)) (avgSize / 2) (avgSize * 2)

section Fixed

structure FixedSplitter where
  cur : Nat
  chunkLength : Nat

def FixedSplitter.Reset (s : FixedSplitter) : FixedSplitter := {s with cur := 0}

def FixedSplitter.NextSplitPoint (s : FixedSplitter) (b : List UInt8) : FixedSplitter × Option Nat :=
  let n := s.chunkLength - s.cur
  if b.length < n then ({s with cur := s.cur + b.length},none) else ({s with cur := 0},some n)

/-- `Fixed` -/
def Fixed (length : Nat) : Factory where
  State := FixedSplitter
  make := ⟨0,length⟩
  NextSplitPoint := FixedSplitter.NextSplitPoint
  MaxSegmentSize := FixedSplitter.chunkLength
  Reset := FixedSplitter.Reset

end Fixed

section Pools

namespace Factory
variable (f : Factory)

/-- A splitter after calls with these buffers. -/
def calls (s : f.State) (buffers : List (List UInt8)) : f.State :=
  buffers.foldl (fun s b => (f.NextSplitPoint s b).1) s

/-- What a pooled factory returns: a splitter that it makes, or one that was taken from it,
used, and reset when it was closed. -/
inductive Pooled : f.State → Prop
  | made : Pooled f.make
  | recycled {s : f.State} : Pooled s → (buffers : List (List UInt8)) → Pooled (f.Reset (f.calls s buffers))

/-- The split points of a stream that is written in buffers. -/
def splitPoints (s : f.State) (buffers : List (List UInt8)) : Option (List Nat) :=
  feedAll f.NextSplitPoint s 0 buffers

end Factory

end Pools

end Vbe.Splitter
