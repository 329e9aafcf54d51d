import Mathlib.Data.List.Sort
import Vbe.Epoch.EpochRange
import Vbe.Library.Keyed

/-! What is known of the epochs of a repository, and which index blobs and epochs follow from it. -/
namespace Vbe.Epoch
open Vbe.IndexBlob.ManagerV0 (Metadata Duration Time)
open Vbe.Library

def numUnsettledEpochs : Int := 2

/-- Blobs by epoch. No entry is `nil`. -/
abbrev EpochSets := Keyed (Prod.fst : Int × List Metadata → Int)

def EpochSets.get (sets : EpochSets) (epoch : Int) : Option (List Metadata) := (sets.get? epoch).map Prod.snd

def EpochSets.keys (sets : EpochSets) : List Int := sets.values.map Prod.fst

structure Parameters where
  Enabled : Bool
  EpochRefreshFrequency : Duration
  FullCheckpointFrequency : Int
  CleanupSafetyMargin : Duration
  MinEpochDuration : Duration
  EpochAdvanceOnCountThreshold : Int
  EpochAdvanceOnTotalSizeBytesThreshold : Int

def minute : Duration := 60 * 1000000000

inductive ParametersError
  | minimumEpochDurationTooLow (d : Duration)
  | epochRefreshPeriodTooLong
  | invalidEpochCheckpointFrequency
  | invalidCleanupSafetyMargin
  | epochAdvanceOnCountTooLow
  | epochAdvanceOnSizeTooLow
deriving DecidableEq

def Parameters.Validate (p : Parameters) : Except ParametersError Unit :=
  if !p.Enabled then .ok ()
  else if p.MinEpochDuration < 10 * minute then .error (.minimumEpochDurationTooLow p.MinEpochDuration)
  else if p.EpochRefreshFrequency * 3 > p.MinEpochDuration then .error .epochRefreshPeriodTooLong
  else if p.FullCheckpointFrequency ≤ 0 then .error .invalidEpochCheckpointFrequency
  else if p.CleanupSafetyMargin < p.EpochRefreshFrequency * 3 then .error .invalidCleanupSafetyMargin
  else if p.EpochAdvanceOnCountThreshold < 10 then .error .epochAdvanceOnCountTooLow
  else if p.EpochAdvanceOnTotalSizeBytesThreshold < 1048576 then .error .epochAdvanceOnSizeTooLow
  else .ok ()

structure CurrentSnapshot where
  WriteEpoch : Int
  UncompactedEpochSets : EpochSets
  LongestRangeCheckpointSets : List RangeMetadata
  SingleEpochCompactionSets : EpochSets
  ValidUntil : Time

def CurrentSnapshot.isSettledEpochNumber (cs : CurrentSnapshot) (epoch : Int) : Bool :=
  epoch ≤ cs.WriteEpoch - numUnsettledEpochs

section IndexSets
variable (ListUncompacted : Int → Option (List Metadata))

/-- The blobs of an epoch. A listing that is asked for may fail. -/
def getIndexesFromEpochInternal (cs : CurrentSnapshot) (epoch : Int) : Option (List Metadata) :=
  match cs.isSettledEpochNumber epoch,cs.SingleEpochCompactionSets.get epoch with
  | true, some compacted => some compacted
  | _, _ =>
    match cs.UncompactedEpochSets.get epoch with
    | some uncompactedBlobs => some uncompactedBlobs
    | none => ListUncompacted epoch

/-- One round of the loop over the range checkpoints. -/
def addCheckpoint (state : List Metadata × Int) (c : RangeMetadata) : List Metadata × Int :=
  if c.MaxEpoch > state.2 then (state.1 ++ c.Blobs,c.MaxEpoch + 1) else state

/-- Less than no epoch makes the code panic. -/
def getCompleteIndexSetForCommittedState (cs : CurrentSnapshot) (minEpoch maxEpoch : Int) : Option (List Metadata) := do
  let (result,startEpoch) := cs.LongestRangeCheckpointSets.foldl addCheckpoint ([],minEpoch)
  let cnt := maxEpoch - startEpoch + 1
  if cnt < 0 then none
  else
    let tmp ← (List.range cnt.toNat).mapM fun (i : Nat) => getIndexesFromEpochInternal ListUncompacted cs (i + startEpoch)
    return result ++ tmp.flatten

end IndexSets

def CurrentSnapshot.firstNonRangeCompacted (cs : CurrentSnapshot) : Int :=
  match cs.LongestRangeCheckpointSets.getLast? with
  | some last => last.MaxEpoch + 1
  | none => 0

/-- The last and the first epoch of the range, where there is one to compact. -/
def getRangeToCompact (cs : CurrentSnapshot) (p : Parameters) : Option (Int × Int) :=
  let latestSettled := cs.WriteEpoch - numUnsettledEpochs
  if latestSettled < 0 then none
  else if latestSettled - cs.firstNonRangeCompacted < p.FullCheckpointFrequency then none
  else some (latestSettled,cs.firstNonRangeCompacted)

structure closedIntRange where
  lo : Int
  hi : Int
deriving DecidableEq

def closedIntRange.length (r : closedIntRange) : Nat := if r.lo > r.hi then 0 else (r.hi - r.lo + 1).toNat

def closedIntRange.isEmpty (r : closedIntRange) : Bool := r.length == 0

/-- The loop over the keys after the first, as far as each is the next one. -/
def runFrom (hi : Int) : List Int → Int
  | [] => hi
  | v :: rest => if v ≠ hi + 1 then hi else runFrom v rest

def getFirstContiguousKeyRange (m : EpochSets) : closedIntRange :=
  match m.keys.insertionSort (· ≤ ·) with
  | [] => ⟨0,-1⟩
  | lo :: rest =>
    let hi := (rest.getLast?).getD lo
    if hi - lo + 1 = m.values.length then ⟨lo,hi⟩ else ⟨lo,runFrom lo rest⟩

def getCompactedEpochRange (cs : CurrentSnapshot) : closedIntRange :=
  getFirstContiguousKeyRange cs.SingleEpochCompactionSets

def getRangeCompactedRange (cs : CurrentSnapshot) : closedIntRange :=
  match cs.LongestRangeCheckpointSets with
  | [] => ⟨0,-1⟩
  | first :: rest => ⟨first.MinEpoch,lastEpoch (first :: rest)⟩

/-- There is no epoch where the range compactions do not cover the first one. -/
def oldestUncompactedEpoch (cs : CurrentSnapshot) : Option Int :=
  let rangeCompacted := getRangeCompactedRange cs
  if !rangeCompacted.isEmpty ∧ rangeCompacted.lo ≠ 0 then none
  else
    let oldestUncompacted := if !rangeCompacted.isEmpty then rangeCompacted.hi + 1 else 0
    let singleCompacted := getCompactedEpochRange cs
    if singleCompacted.isEmpty ∨ oldestUncompacted < singleCompacted.lo then some oldestUncompacted
    else if oldestUncompacted > singleCompacted.hi then some oldestUncompacted
    else some (singleCompacted.hi + 1)

inductive CompactionStep
  | failed
  | nothing
  | compact (uncompactedBlobs : List Metadata) (epoch : Int)

def MaybeCompactSingleEpoch (ListUncompacted : Int → Option (List Metadata)) (cs : CurrentSnapshot) : CompactionStep :=
  match oldestUncompactedEpoch cs with
  | none => .failed
  | some uncompacted =>
    if !cs.isSettledEpochNumber uncompacted then .nothing
    else
      match (cs.UncompactedEpochSets.get uncompacted).or (ListUncompacted uncompacted) with
      | none => .failed
      | some uncompactedBlobs => .compact uncompactedBlobs uncompacted

end Vbe.Epoch
