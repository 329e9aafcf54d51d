import Vbe.Epoch.Coverage

/-! The oldest epoch that is not compacted. Of the single-epoch compactions only the first ones without a gap are looked at. -/
namespace Vbe.Epoch
open Vbe.IndexBlob.ManagerV0 (Metadata)
open Vbe.Library

def CurrentSnapshot.Covered (cs : CurrentSnapshot) (epoch : Int) : Prop :=
  ∃ r ∈ cs.LongestRangeCheckpointSets, r.MinEpoch ≤ epoch ∧ epoch ≤ r.MaxEpoch

def CurrentSnapshot.Compacted (cs : CurrentSnapshot) (epoch : Int) : Prop := epoch ∈ cs.SingleEpochCompactionSets.keys

/-- The first epoch of all that is in no range checkpoint and has no compaction of its own. -/
structure CurrentSnapshot.Oldest (cs : CurrentSnapshot) (epoch : Int) : Prop where
  nonneg : 0 ≤ epoch
  uncovered : ¬cs.Covered epoch
  uncompacted : ¬cs.Compacted epoch
  first : ∀ e, 0 ≤ e → e < epoch → cs.Covered e ∨ cs.Compacted e

/-- Keys without a gap from the smallest one, up to one that the next one is missing after. -/
structure FirstRun (keys : List Int) (r : closedIntRange) : Prop where
  below : ∀ k ∈ keys, r.lo ≤ k
  ordered : r.lo ≤ r.hi
  inside : ∀ e, r.lo ≤ e → e ≤ r.hi → e ∈ keys
  ends : r.hi + 1 ∉ keys

theorem runFrom_run {hi : Int} {rest : List Int} (sorted : (hi :: rest).Pairwise (· < ·)) :
    hi ≤ runFrom hi rest ∧ (∀ e, hi ≤ e → e ≤ runFrom hi rest → e ∈ hi :: rest) ∧ runFrom hi rest + 1 ∉ hi :: rest := by
  induction rest generalizing hi with
  | nil =>
    refine ⟨Int.le_refl hi,?_,by simp [runFrom]⟩
    intro e above below
    have same : e = hi := by
      unfold runFrom at below
      omega
    simp [same]
  | cons v rest ih =>
    obtain ⟨first,later⟩ := List.pairwise_cons.mp sorted
    have next := first v List.mem_cons_self
    rw [runFrom]
    split
    next gap =>
      refine ⟨Int.le_refl hi,?_,?_⟩
      · intro e above below
        have same : e = hi := by omega
        simp [same]
      · intro member
        rcases List.mem_cons.mp member with own | others
        · omega
        · rcases List.mem_cons.mp others with same | others
          · omega
          · have after := (List.pairwise_cons.mp later).1 _ others
            omega
    next goes =>
      have same : v = hi + 1 := by omega
      obtain ⟨above,inside,ends⟩ := ih later
      refine ⟨by omega,?_,?_⟩
      · intro e low high
        by_cases own : e = hi
        · simp [own]
        · exact List.mem_cons_of_mem hi (inside e (by omega) high)
      · intro member
        rcases List.mem_cons.mp member with own | others
        · omega
        · exact ends others

theorem getLast?_getD_cons (lo v : Int) (rest : List Int) : ((v :: rest).getLast?).getD lo = (rest.getLast?).getD v := by
  rw [List.getLast?_cons]
  rfl

theorem length_le_last {lo : Int} {rest : List Int} (sorted : (lo :: rest).Pairwise (· < ·)) :
    (rest.length : Int) ≤ (rest.getLast?).getD lo - lo := by
  induction rest generalizing lo with
  | nil => simp
  | cons v rest ih =>
    obtain ⟨first,later⟩ := List.pairwise_cons.mp sorted
    have next := first v List.mem_cons_self
    have more := ih later
    rw [getLast?_getD_cons,List.length_cons]
    omega

/-- As many keys as there are numbers from the first to the last have no gap. -/
theorem runFrom_last {lo : Int} {rest : List Int} (sorted : (lo :: rest).Pairwise (· < ·))
    (full : (rest.getLast?).getD lo - lo = rest.length) : runFrom lo rest = (rest.getLast?).getD lo := by
  induction rest generalizing lo with
  | nil => rfl
  | cons v rest ih =>
    obtain ⟨first,later⟩ := List.pairwise_cons.mp sorted
    have next := first v List.mem_cons_self
    have more := length_le_last later
    rw [getLast?_getD_cons,List.length_cons] at full
    rw [runFrom,if_neg (by omega),getLast?_getD_cons]
    exact ih later (by omega)

theorem firstRun (m : EpochSets) (some_key : m.keys ≠ []) : FirstRun m.keys (getFirstContiguousKeyRange m) := by
  have perm := List.perm_insertionSort (· ≤ ·) m.keys
  have sorted : (m.keys.insertionSort (· ≤ ·)).Pairwise (· < ·) := by
    have weak := List.pairwise_insertionSort (· ≤ ·) m.keys
    have distinct : (m.keys.insertionSort (· ≤ ·)).Pairwise (· ≠ ·) := perm.nodup_iff.mpr m.nodup
    refine (weak.and distinct).imp ?_
    intro a b both
    exact lt_of_le_of_ne both.1 both.2
  cases keys : m.keys.insertionSort (· ≤ ·) with
  | nil =>
    rw [keys] at perm
    exact absurd perm.nil_eq.symm some_key
  | cons lo rest =>
    rw [keys] at perm sorted
    have length : m.values.length = rest.length + 1 := by
      have same := perm.length_eq
      rw [List.length_cons,EpochSets.keys,List.length_map] at same
      exact same.symm
    have range : getFirstContiguousKeyRange m = ⟨lo,runFrom lo rest⟩ := by
      unfold getFirstContiguousKeyRange
      rw [keys]
      dsimp only
      split
      next full =>
        rw [length] at full
        rw [runFrom_last sorted (by push_cast at full; omega)]
      next => rfl
    obtain ⟨ordered,inside,ends⟩ := runFrom_run sorted
    rw [range]
    refine ⟨?_,ordered,fun e low high => perm.mem_iff.mp (inside e low high),fun member => ends (perm.mem_iff.mpr member)⟩
    intro k member
    rcases List.mem_cons.mp (perm.mem_iff.mpr member) with first | later
    · exact Int.le_of_eq first.symm
    · exact Int.le_of_lt ((List.pairwise_cons.mp sorted).1 k later)

theorem covered_iff {cs : CurrentSnapshot} (contiguous : Contiguous 0 cs.LongestRangeCheckpointSets)
    (longer : ∀ r ∈ cs.LongestRangeCheckpointSets, r.MinEpoch < r.MaxEpoch) (e : Int) :
    cs.Covered e ↔ 0 ≤ e ∧ e ≤ lastEpoch cs.LongestRangeCheckpointSets := by
  have count := countP_checkpoints contiguous longer e
  rw [nextEpoch_zero] at count
  have some_source : cs.Covered e ↔ 0 < (cs.LongestRangeCheckpointSets.map Source.checkpoint).countP (Source.covers e) := by
    rw [List.countP_pos_iff]
    simp [CurrentSnapshot.Covered,Source.covers]
  rw [some_source,count]
  split
  next inside => exact ⟨fun _ => by omega,fun _ => Nat.one_pos⟩
  next outside => exact ⟨fun positive => by omega,fun inside => absurd (by omega) outside⟩

/-- What the code answers: the end of the first run where the first epoch without a checkpoint is in it. -/
theorem oldestUncompactedEpoch_eq {cs : CurrentSnapshot} (contiguous : Contiguous 0 cs.LongestRangeCheckpointSets)
    (longer : ∀ r ∈ cs.LongestRangeCheckpointSets, r.MinEpoch < r.MaxEpoch) :
    oldestUncompactedEpoch cs = some (
      if (getCompactedEpochRange cs).isEmpty ∨ cs.firstNonRangeCompacted < (getCompactedEpochRange cs).lo ∨
        cs.firstNonRangeCompacted > (getCompactedEpochRange cs).hi then cs.firstNonRangeCompacted
      else (getCompactedEpochRange cs).hi + 1) := by
  have next : cs.firstNonRangeCompacted = lastEpoch cs.LongestRangeCheckpointSets + 1 := firstNonRangeCompacted_eq
  have start : (¬(getRangeCompactedRange cs).isEmpty = true → (getRangeCompactedRange cs).lo = 0) ∧
      (if !(getRangeCompactedRange cs).isEmpty then (getRangeCompactedRange cs).hi + 1 else 0) =
        cs.firstNonRangeCompacted := by
    rw [next]
    unfold getRangeCompactedRange
    cases sets : cs.LongestRangeCheckpointSets with
    | nil => exact ⟨fun some_range => absurd rfl some_range,rfl⟩
    | cons first rest =>
      rw [sets] at contiguous longer
      have positive := le_nextEpoch contiguous longer
      have long := longer first List.mem_cons_self
      have bound := le_lastEpoch contiguous longer first List.mem_cons_self
      have starts := contiguous.1
      have full : (closedIntRange.mk first.MinEpoch (lastEpoch (first :: rest))).isEmpty = false := by
        unfold closedIntRange.isEmpty closedIntRange.length
        dsimp only
        rw [if_neg (by omega)]
        simp only [beq_eq_false_iff_ne,ne_eq]
        omega
      dsimp only
      rw [full]
      exact ⟨fun _ => starts,rfl⟩
  obtain ⟨lowest,oldest⟩ := start
  unfold oldestUncompactedEpoch
  simp only [oldest]
  rw [if_neg (by
    rintro ⟨some_range,above⟩
    exact above (lowest (by simpa using some_range)))]
  by_cases before : (getCompactedEpochRange cs).isEmpty = true ∨ cs.firstNonRangeCompacted < (getCompactedEpochRange cs).lo
  · rw [if_pos before,if_pos (before.imp id Or.inl)]
  · rw [if_neg before]
    by_cases after : cs.firstNonRangeCompacted > (getCompactedEpochRange cs).hi
    · rw [if_pos after,if_pos (Or.inr (Or.inr after))]
    · rw [if_neg after,if_neg (by
        rintro (none | below | above)
        · exact before (Or.inl none)
        · exact before (Or.inr below)
        · exact after above)]

section Oldest
variable {cs : CurrentSnapshot} (contiguous : Contiguous 0 cs.LongestRangeCheckpointSets)
  (longer : ∀ r ∈ cs.LongestRangeCheckpointSets, r.MinEpoch < r.MaxEpoch)
include contiguous longer

theorem firstNonRangeCompacted_nonneg : 0 ≤ cs.firstNonRangeCompacted := by
  have later := le_nextEpoch contiguous longer
  rwa [nextEpoch_zero,← firstNonRangeCompacted_eq] at later

theorem covered_iff_lt (e : Int) : cs.Covered e ↔ 0 ≤ e ∧ e < cs.firstNonRangeCompacted := by
  rw [covered_iff contiguous longer,firstNonRangeCompacted_eq]
  omega

/-- The first epoch without a checkpoint is the oldest one where it has no compaction. -/
theorem oldest_first (free : ¬cs.Compacted cs.firstNonRangeCompacted) : cs.Oldest cs.firstNonRangeCompacted where
  nonneg := firstNonRangeCompacted_nonneg contiguous longer
  uncovered := by
    rw [covered_iff_lt contiguous longer]
    omega
  uncompacted := free
  first := by
    intro e low below
    exact Or.inl ((covered_iff_lt contiguous longer e).mpr ⟨low,below⟩)

theorem oldest_after_run (run : FirstRun cs.SingleEpochCompactionSets.keys (getCompactedEpochRange cs))
    (inside : (getCompactedEpochRange cs).lo ≤ cs.firstNonRangeCompacted)
    (ends : cs.firstNonRangeCompacted ≤ (getCompactedEpochRange cs).hi) : cs.Oldest ((getCompactedEpochRange cs).hi + 1) where
  nonneg := by
    have positive := firstNonRangeCompacted_nonneg contiguous longer
    omega
  uncovered := by
    rw [covered_iff_lt contiguous longer]
    omega
  uncompacted := run.ends
  first := by
    intro e low below
    by_cases covered : e < cs.firstNonRangeCompacted
    · exact Or.inl ((covered_iff_lt contiguous longer e).mpr ⟨low,covered⟩)
    · exact Or.inr (run.inside e (by omega) (by omega))

theorem oldestUncompactedEpoch_oldest
    (in_run : cs.Compacted cs.firstNonRangeCompacted → cs.firstNonRangeCompacted ≤ (getCompactedEpochRange cs).hi) :
    ∃ e, oldestUncompactedEpoch cs = some e ∧ cs.Oldest e := by
  rw [oldestUncompactedEpoch_eq contiguous longer]
  refine ⟨_,rfl,?_⟩
  by_cases none : cs.SingleEpochCompactionSets.keys = []
  · have empty : (getCompactedEpochRange cs).isEmpty = true := by
      unfold getCompactedEpochRange getFirstContiguousKeyRange
      rw [none]
      rfl
    rw [if_pos (Or.inl empty)]
    refine oldest_first contiguous longer ?_
    rw [CurrentSnapshot.Compacted,none]
    exact List.not_mem_nil
  · have run := firstRun cs.SingleEpochCompactionSets none
    have ordered : (getCompactedEpochRange cs).lo ≤ (getCompactedEpochRange cs).hi := run.ordered
    have full : ¬(getCompactedEpochRange cs).isEmpty = true := by
      unfold closedIntRange.isEmpty closedIntRange.length
      rw [if_neg (by omega)]
      simp only [beq_iff_eq]
      omega
    split
    next outside =>
      refine oldest_first contiguous longer ?_
      intro compacted
      have below := in_run compacted
      have above : (getCompactedEpochRange cs).lo ≤ cs.firstNonRangeCompacted := run.below _ compacted
      rcases outside with empty | low | high
      · exact full empty
      · omega
      · omega
    next inside =>
      simp only [not_or] at inside
      exact oldest_after_run contiguous longer run (by omega) (by omega)

/-- The code finds the oldest uncompacted epoch exactly where the first one without a checkpoint is not compacted, or is in
the first run. -/
theorem oldestUncompactedEpoch_iff (ListUncompacted : Int → Option (List Metadata)) :
    ((∃ e, oldestUncompactedEpoch cs = some e ∧ cs.Oldest e) ∧
      ∀ blobs e, MaybeCompactSingleEpoch ListUncompacted cs = .compact blobs e → ¬cs.Covered e ∧ ¬cs.Compacted e) ↔
    (cs.Compacted cs.firstNonRangeCompacted → cs.firstNonRangeCompacted ≤ (getCompactedEpochRange cs).hi) := by
  constructor
  · rintro ⟨⟨e,answered,oldest⟩,_⟩ compacted
    by_contra beyond
    rw [oldestUncompactedEpoch_eq contiguous longer,if_pos (Or.inr (Or.inr (by omega)))] at answered
    exact oldest.uncompacted (Option.some.inj answered ▸ compacted)
  · intro in_run
    have found := oldestUncompactedEpoch_oldest contiguous longer in_run
    refine ⟨found,?_⟩
    intro blobs e compacts
    obtain ⟨e',answered,oldest⟩ := found
    unfold MaybeCompactSingleEpoch at compacts
    rw [answered] at compacts
    dsimp only at compacts
    split at compacts
    next => contradiction
    next =>
      split at compacts
      next => contradiction
      next =>
        obtain ⟨_,rfl⟩ := CompactionStep.compact.inj compacts
        exact ⟨oldest.uncovered,oldest.uncompacted⟩

end Oldest

/-- Ranges up to epoch 7, and compactions of two epochs with a gap between them. -/
def gapSnapshot : CurrentSnapshot :=
  ⟨20,Keyed.empty,[⟨0,7,[]⟩],⟨[(0,[]),(9,[]),(10,[])],by decide⟩,0⟩

theorem oldestUncompactedEpoch_iff_gap :
    ((∃ e, oldestUncompactedEpoch gapSnapshot = some e ∧ gapSnapshot.Oldest e) ∧
      ∀ blobs e, MaybeCompactSingleEpoch (fun _ => some []) gapSnapshot = .compact blobs e →
        ¬gapSnapshot.Covered e ∧ ¬gapSnapshot.Compacted e) ↔
    (gapSnapshot.Compacted gapSnapshot.firstNonRangeCompacted →
      gapSnapshot.firstNonRangeCompacted ≤ (getCompactedEpochRange gapSnapshot).hi) := by
  have contiguous : Contiguous 0 gapSnapshot.LongestRangeCheckpointSets := ⟨rfl,trivial⟩
  exact oldestUncompactedEpoch_iff contiguous (by decide) fun _ => some []

def recompactedSnapshot : CurrentSnapshot :=
  ⟨20,Keyed.empty,[⟨0,7,[]⟩],⟨[(0,[]),(8,[])],by decide⟩,0⟩

/-- An epoch after the ranges is compacted again where there is an older compaction before a gap. -/
theorem compactedEpoch_recompacted :
    MaybeCompactSingleEpoch (fun _ => some []) recompactedSnapshot = .compact [] 8 ∧ recompactedSnapshot.Compacted 8 ∧
      ¬∃ e, oldestUncompactedEpoch recompactedSnapshot = some e ∧ recompactedSnapshot.Oldest e := by
  have answered : oldestUncompactedEpoch recompactedSnapshot = some 8 := by decide +kernel
  have compacted : recompactedSnapshot.Compacted 8 := by
    unfold CurrentSnapshot.Compacted
    decide
  refine ⟨rfl,compacted,?_⟩
  rintro ⟨e,again,oldest⟩
  rw [answered] at again
  exact oldest.uncompacted (Option.some.inj again ▸ compacted)

end Vbe.Epoch
