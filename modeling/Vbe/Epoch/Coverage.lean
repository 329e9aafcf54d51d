import Vbe.Epoch.EpochManager

/-! Complete index sets have each epoch from one source. -/
namespace Vbe.Epoch
open Vbe.IndexBlob.ManagerV0 (Metadata)

/-- Where the indexes of epochs are. -/
inductive Source
  | checkpoint (r : RangeMetadata)
  | compacted (epoch : Int)
  | uncompacted (epoch : Int)

def Source.covers (e : Int) : Source → Bool
  | checkpoint r => r.MinEpoch ≤ e ∧ e ≤ r.MaxEpoch
  | compacted epoch => epoch = e
  | uncompacted epoch => epoch = e

def Source.blobs (ListUncompacted : Int → Option (List Metadata)) (cs : CurrentSnapshot) : Source → Option (List Metadata)
  | checkpoint r => some r.Blobs
  | compacted epoch => cs.SingleEpochCompactionSets.get epoch
  | uncompacted epoch => (cs.UncompactedEpochSets.get epoch).or (ListUncompacted epoch)

/-- The source of an epoch that no checkpoint covers: its complete set once it is settled and has one. -/
def CurrentSnapshot.sourceOf (cs : CurrentSnapshot) (epoch : Int) : Source :=
  if cs.isSettledEpochNumber epoch ∧ (cs.SingleEpochCompactionSets.get epoch).isSome then .compacted epoch
  else .uncompacted epoch

def epochsFrom (first last : Int) : List Int := (List.range (last - first + 1).toNat).map fun (i : Nat) => (i : Int) + first

/-- Each epoch between two is in one of the sources, and no other epoch is in any. -/
def EachOnce (sources : List Source) (first last : Int) : Prop :=
  ∀ e, sources.countP (Source.covers e) = if first ≤ e ∧ e ≤ last then 1 else 0

variable {ListUncompacted : Int → Option (List Metadata)} {cs : CurrentSnapshot}

theorem sourceOf_blobs (epoch : Int) :
    (cs.sourceOf epoch).blobs ListUncompacted cs = getIndexesFromEpochInternal ListUncompacted cs epoch := by
  unfold CurrentSnapshot.sourceOf getIndexesFromEpochInternal
  cases settled : cs.isSettledEpochNumber epoch <;> cases compacted : cs.SingleEpochCompactionSets.get epoch <;>
    cases uncompacted : cs.UncompactedEpochSets.get epoch <;> simp [Source.blobs,compacted,uncompacted]

theorem covers_sourceOf (e epoch : Int) : (cs.sourceOf epoch).covers e = decide (epoch = e) := by
  unfold CurrentSnapshot.sourceOf
  split <;> rfl

/-- The epoch after a chain. -/
def nextEpoch (start : Int) (sets : List RangeMetadata) : Int := if sets = [] then start else lastEpoch sets + 1

theorem nextEpoch_cons (start : Int) (r : RangeMetadata) (rest : List RangeMetadata) :
    nextEpoch start (r :: rest) = nextEpoch (r.MaxEpoch + 1) rest := by
  by_cases last : rest = []
  · subst last
    rfl
  · simp [nextEpoch,last,lastEpoch_cons r last]

theorem nextEpoch_zero (sets : List RangeMetadata) : nextEpoch 0 sets = lastEpoch sets + 1 := by
  by_cases none : sets = []
  · subst none
    rfl
  · rw [nextEpoch,if_neg none]

theorem le_nextEpoch {sets : List RangeMetadata} {start : Int} (contiguous : Contiguous start sets)
    (longer : ∀ r ∈ sets, r.MinEpoch < r.MaxEpoch) : start ≤ nextEpoch start sets := by
  induction sets generalizing start with
  | nil => exact Int.le_refl start
  | cons r rest ih =>
    obtain ⟨starts,after⟩ := contiguous
    have long := longer r List.mem_cons_self
    have later := ih after fun r' member => longer r' (List.mem_cons_of_mem r member)
    rw [nextEpoch_cons]
    omega

/-- All checkpoints of a chain are taken. -/
theorem foldl_addCheckpoint {sets : List RangeMetadata} {start : Int} (contiguous : Contiguous start sets)
    (longer : ∀ r ∈ sets, r.MinEpoch < r.MaxEpoch) (result : List Metadata) :
    sets.foldl addCheckpoint (result,start) = (result ++ sets.flatMap RangeMetadata.Blobs,nextEpoch start sets) := by
  induction sets generalizing start result with
  | nil => simp [nextEpoch]
  | cons r rest ih =>
    obtain ⟨starts,after⟩ := contiguous
    have long := longer r List.mem_cons_self
    have taken : addCheckpoint (result,start) r = (result ++ r.Blobs,r.MaxEpoch + 1) := by
      unfold addCheckpoint
      rw [if_pos (by dsimp only; omega)]
    rw [List.foldl_cons,taken,ih after fun r' member => longer r' (List.mem_cons_of_mem r member),nextEpoch_cons,
      List.flatMap_cons,List.append_assoc]

/-- No checkpoint is taken that ends at the first epoch or before. -/
theorem foldl_addCheckpoint_before {sets : List RangeMetadata} {start : Int} (before : ∀ r ∈ sets, r.MaxEpoch ≤ start)
    (result : List Metadata) : sets.foldl addCheckpoint (result,start) = (result,start) := by
  induction sets with
  | nil => rfl
  | cons r rest ih =>
    have left : addCheckpoint (result,start) r = (result,start) := by
      unfold addCheckpoint
      rw [if_neg (Int.not_lt.mpr (before r List.mem_cons_self))]
    rw [List.foldl_cons,left,ih fun r' member => before r' (List.mem_cons_of_mem r member)]

theorem countP_checkpoints {sets : List RangeMetadata} {start : Int} (contiguous : Contiguous start sets)
    (longer : ∀ r ∈ sets, r.MinEpoch < r.MaxEpoch) (e : Int) :
    (sets.map Source.checkpoint).countP (Source.covers e) = if start ≤ e ∧ e < nextEpoch start sets then 1 else 0 := by
  induction sets generalizing start with
  | nil =>
    rw [if_neg (by simp [nextEpoch])]
    rfl
  | cons r rest ih =>
    obtain ⟨starts,after⟩ := contiguous
    have long := longer r List.mem_cons_self
    have longer' := fun r' member => longer r' (List.mem_cons_of_mem r member)
    have later := le_nextEpoch after longer'
    rw [List.map_cons,List.countP_cons,ih after longer',nextEpoch_cons]
    simp only [Source.covers,decide_eq_true_eq]
    by_cases own : r.MinEpoch ≤ e ∧ e ≤ r.MaxEpoch
    · rw [if_neg (by omega),if_pos own,if_pos (by omega)]
    · rw [if_neg own]
      by_cases others : r.MaxEpoch + 1 ≤ e ∧ e < nextEpoch (r.MaxEpoch + 1) rest
      · rw [if_pos others,if_pos (by omega)]
      · rw [if_neg others,if_neg (by omega)]

theorem mem_epochsFrom {first last e : Int} : e ∈ epochsFrom first last ↔ first ≤ e ∧ e ≤ last := by
  simp only [epochsFrom,List.mem_map,List.mem_range]
  constructor
  · rintro ⟨i,inside,rfl⟩
    omega
  · intro inside
    exact ⟨(e - first).toNat,by omega,by omega⟩

theorem nodup_epochsFrom (first last : Int) : (epochsFrom first last).Nodup := by
  refine List.Nodup.map ?_ List.nodup_range
  intro i j same
  dsimp only at same
  omega

theorem countP_epochs (first last e : Int) :
    ((epochsFrom first last).map cs.sourceOf).countP (Source.covers e) = if first ≤ e ∧ e ≤ last then 1 else 0 := by
  have single : ((epochsFrom first last).map cs.sourceOf).countP (Source.covers e) = (epochsFrom first last).count e := by
    rw [List.countP_map,List.count]
    refine List.countP_congr ?_
    intro epoch _
    simp [covers_sourceOf]
  rw [single,(nodup_epochsFrom first last).count]
  simp only [mem_epochsFrom]

theorem mapM_checkpoints (sets : List RangeMetadata) :
    (sets.map Source.checkpoint).mapM (Source.blobs ListUncompacted cs) = some (sets.map RangeMetadata.Blobs) := by
  induction sets with
  | nil => rfl
  | cons r rest ih =>
    rw [List.map_cons,List.mapM_cons,ih]
    rfl

/-- The code takes the blobs of each epoch from `startEpoch`. -/
theorem mapM_epochs (startEpoch maxEpoch : Int) :
    ((List.range (maxEpoch - startEpoch + 1).toNat).mapM fun (i : Nat) =>
      getIndexesFromEpochInternal ListUncompacted cs (i + startEpoch)) =
    ((epochsFrom startEpoch maxEpoch).map cs.sourceOf).mapM (Source.blobs ListUncompacted cs) := by
  unfold epochsFrom
  generalize List.range (maxEpoch - startEpoch + 1).toNat = l
  induction l with
  | nil => rfl
  | cons i l ih =>
    rw [List.mapM_cons,ih,List.map_cons,List.map_cons,List.mapM_cons,sourceOf_blobs]

/-- The range checkpoints, and then the epochs after them. -/
def CurrentSnapshot.indexSources (cs : CurrentSnapshot) (maxEpoch : Int) : List Source :=
  cs.LongestRangeCheckpointSets.map Source.checkpoint ++
    (epochsFrom (lastEpoch cs.LongestRangeCheckpointSets + 1) maxEpoch).map cs.sourceOf

theorem le_lastEpoch {sets : List RangeMetadata} {start : Int} (contiguous : Contiguous start sets)
    (longer : ∀ r ∈ sets, r.MinEpoch < r.MaxEpoch) : ∀ r ∈ sets, r.MaxEpoch ≤ lastEpoch sets := by
  induction sets generalizing start with
  | nil => simp
  | cons r rest ih =>
    obtain ⟨starts,after⟩ := contiguous
    have longer' := fun r' member => longer r' (List.mem_cons_of_mem r member)
    have later := le_nextEpoch after longer'
    intro r' member
    by_cases last : rest = []
    · subst last
      rw [List.mem_singleton.mp member,lastEpoch_singleton]
    · rw [lastEpoch_cons r last]
      rw [nextEpoch,if_neg last] at later
      rcases List.mem_cons.mp member with rfl | inside
      · omega
      · exact ih after longer' r' inside

theorem completeSet_from_start (contiguous : Contiguous 0 cs.LongestRangeCheckpointSets)
    (longer : ∀ r ∈ cs.LongestRangeCheckpointSets, r.MinEpoch < r.MaxEpoch) {maxEpoch : Int}
    (covered : lastEpoch cs.LongestRangeCheckpointSets ≤ maxEpoch) :
    getCompleteIndexSetForCommittedState ListUncompacted cs 0 maxEpoch =
      ((cs.indexSources maxEpoch).mapM (Source.blobs ListUncompacted cs)).map List.flatten ∧
    EachOnce (cs.indexSources maxEpoch) 0 maxEpoch := by
  have next := nextEpoch_zero cs.LongestRangeCheckpointSets
  have first := le_nextEpoch contiguous longer
  constructor
  · unfold getCompleteIndexSetForCommittedState CurrentSnapshot.indexSources
    rw [foldl_addCheckpoint contiguous longer]
    simp only [List.mapM_append,mapM_checkpoints,mapM_epochs,next]
    rw [if_neg (by omega)]
    cases ((epochsFrom (lastEpoch cs.LongestRangeCheckpointSets + 1) maxEpoch).map cs.sourceOf).mapM
      (Source.blobs ListUncompacted cs) with
    | none => rfl
    | some tmp => simp [List.flatMap_def]
  · intro e
    unfold CurrentSnapshot.indexSources
    rw [List.countP_append,countP_checkpoints contiguous longer,countP_epochs,next]
    by_cases early : e < lastEpoch cs.LongestRangeCheckpointSets + 1
    · by_cases inside : 0 ≤ e
      · rw [if_pos (by omega),if_neg (by omega),if_pos (by omega)]
      · rw [if_neg (by omega),if_neg (by omega),if_neg (by omega)]
    · by_cases inside : e ≤ maxEpoch
      · rw [if_neg (by omega),if_pos (by omega),if_pos (by omega)]
      · rw [if_neg (by omega),if_neg (by omega),if_neg (by omega)]

theorem firstNonRangeCompacted_eq : cs.firstNonRangeCompacted = lastEpoch cs.LongestRangeCheckpointSets + 1 := by
  unfold CurrentSnapshot.firstNonRangeCompacted lastEpoch
  cases cs.LongestRangeCheckpointSets.getLast? <;> rfl

theorem completeSet_of_range (contiguous : Contiguous 0 cs.LongestRangeCheckpointSets)
    (longer : ∀ r ∈ cs.LongestRangeCheckpointSets, r.MinEpoch < r.MaxEpoch) {p : Parameters}
    (often : 0 < p.FullCheckpointFrequency) {high low : Int} (range : getRangeToCompact cs p = some (high,low)) :
    low < high ∧ getCompleteIndexSetForCommittedState ListUncompacted cs low high =
      (((epochsFrom low high).map cs.sourceOf).mapM (Source.blobs ListUncompacted cs)).map List.flatten ∧
    EachOnce ((epochsFrom low high).map cs.sourceOf) low high := by
  have start : low = lastEpoch cs.LongestRangeCheckpointSets + 1 ∧ p.FullCheckpointFrequency ≤ high - low := by
    unfold getRangeToCompact at range
    simp only [firstNonRangeCompacted_eq] at range
    split at range
    next => contradiction
    next =>
      split at range
      next => contradiction
      next enough =>
        obtain ⟨rfl,rfl⟩ := Prod.mk.inj (Option.some.inj range)
        exact ⟨rfl,by omega⟩
  obtain ⟨starts,many⟩ := start
  refine ⟨by omega,?_,countP_epochs low high⟩
  have before : ∀ r ∈ cs.LongestRangeCheckpointSets, r.MaxEpoch ≤ low := by
    intro r member
    have bound := le_lastEpoch contiguous longer r member
    omega
  unfold getCompleteIndexSetForCommittedState
  rw [foldl_addCheckpoint_before before]
  simp only [mapM_epochs]
  rw [if_neg (by omega)]
  cases ((epochsFrom low high).map cs.sourceOf).mapM (Source.blobs ListUncompacted cs) <;> rfl

theorem Parameters.often {p : Parameters} (enabled : p.Enabled = true) (valid : p.Validate = .ok ()) :
    0 < p.FullCheckpointFrequency := by
  by_contra rare
  have few : p.FullCheckpointFrequency ≤ 0 := by omega
  unfold Parameters.Validate at valid
  simp only [enabled,Bool.not_true,Bool.false_eq_true,if_false,few,if_true] at valid
  split at valid
  next => contradiction
  next =>
    split at valid
    next => contradiction
    next => contradiction

/-- Complete index sets take each epoch from exactly one source. Those that are compacted to a range take its epochs only. -/
theorem getCompleteIndexSet_covers {ranges : List RangeMetadata} (proper : Proper ranges) {fuel : Nat} {cs : CurrentSnapshot}
    (found : findLongestRangeCheckpoint fuel ranges = some cs.LongestRangeCheckpointSets)
    (ListUncompacted : Int → Option (List Metadata)) :
    (∀ maxEpoch ≥ lastEpoch cs.LongestRangeCheckpointSets,
      getCompleteIndexSetForCommittedState ListUncompacted cs 0 maxEpoch =
        ((cs.indexSources maxEpoch).mapM (Source.blobs ListUncompacted cs)).map List.flatten ∧
      EachOnce (cs.indexSources maxEpoch) 0 maxEpoch) ∧
    ∀ (p : Parameters) (high low : Int), p.Enabled = true → p.Validate = .ok () →
      getRangeToCompact cs p = some (high,low) →
        low < high ∧ getCompleteIndexSetForCommittedState ListUncompacted cs low high =
          (((epochsFrom low high).map cs.sourceOf).mapM (Source.blobs ListUncompacted cs)).map List.flatten ∧
        EachOnce ((epochsFrom low high).map cs.sourceOf) low high := by
  have chain := (longest_of_found proper found).chain
  have longer : ∀ r ∈ cs.LongestRangeCheckpointSets, r.MinEpoch < r.MaxEpoch := by
    intro r member
    exact (proper r (chain.subset member)).2
  constructor
  · intro maxEpoch covered
    exact completeSet_from_start chain.contiguous longer covered
  · intro p high low enabled valid range
    exact completeSet_of_range chain.contiguous longer (Parameters.often enabled valid) range

def checkpointedSnapshot : CurrentSnapshot :=
  ⟨20,⟨[(19,[]),(20,[]),(21,[])],by decide⟩,[⟨0,3,[]⟩,⟨4,7,[]⟩],⟨[(9,[])],by decide⟩,0⟩

def DefaultParameters : Parameters := ⟨true,20 * minute,7,240 * minute,1440 * minute,20,10485760⟩

theorem getCompleteIndexSet_covers_checkpoints :
    EachOnce (checkpointedSnapshot.indexSources 21) 0 21 ∧
      getCompleteIndexSetForCommittedState (fun _ => some []) checkpointedSnapshot 8 18 =
        (((epochsFrom 8 18).map checkpointedSnapshot.sourceOf).mapM
          (Source.blobs (fun _ => some []) checkpointedSnapshot)).map List.flatten ∧
      EachOnce ((epochsFrom 8 18).map checkpointedSnapshot.sourceOf) 8 18 := by
  have proper : Proper [⟨0,3,[]⟩,⟨4,7,[]⟩] := by
    unfold Proper
    decide
  have found : findLongestRangeCheckpoint 3 [⟨0,3,[]⟩,⟨4,7,[]⟩] =
      some checkpointedSnapshot.LongestRangeCheckpointSets := by rfl
  obtain ⟨complete,range⟩ := getCompleteIndexSet_covers proper found fun _ => some []
  exact ⟨(complete 21 (by decide)).2,(range DefaultParameters 18 8 rfl (by decide) (by decide)).2⟩

end Vbe.Epoch
