import Vbe.IndexBlob.ManagerV0
import Vbe.Library.Results

/-! The longest chain of range checkpoints, found by a search that remembers what it has found from each epoch. Epochs are
below `2^63`, and no range starts after the last one. -/
namespace Vbe.Epoch
open Vbe.IndexBlob.ManagerV0 (Metadata)
open Vbe.Library

/-- The indexes of the epochs from `MinEpoch` to `MaxEpoch`, both included. -/
structure RangeMetadata where
  MinEpoch : Int
  MaxEpoch : Int
  Blobs : List Metadata

abbrev Memo := List (Int × List RangeMetadata)

/-- The last epoch of a list of ranges, or the one before the first of all. -/
def lastEpoch (l : List RangeMetadata) : Int := (l.getLast?.map RangeMetadata.MaxEpoch).getD (-1)

/-- One round of the loop over the ranges that start at an epoch, `rest` being the longest checkpoint after the range. -/
def better (longest : Int) (longestMetadata combined : List RangeMetadata) : Int × List RangeMetadata :=
  let m := lastEpoch combined
  if m > longest ∨ (m = longest ∧ combined.length < longestMetadata.length) then (m,combined)
  else (longest,longestMetadata)

/-- Searches that go through more than `fuel` ranges one after another have no result. -/
def findLongestRangeCheckpointStartingAt (byMin : Int → List RangeMetadata) :
    Nat → Int → Memo → Option (List RangeMetadata × Memo)
  | 0, _, _ => none
  | fuel + 1, startEpoch, memo =>
    match memo.lookup startEpoch with
    | some l => some (l,memo)
    | none => do
      let ((_,longestMetadata),memo) ← (byMin startEpoch).foldlM
        (fun ((longest,longestMetadata),memo) cp => do
          let (rest,memo) ← findLongestRangeCheckpointStartingAt byMin fuel (cp.MaxEpoch + 1) memo
          return (better longest longestMetadata (cp :: rest),memo))
        (((0 : Int),[]),memo)
      return (longestMetadata,(startEpoch,longestMetadata) :: memo)

def findLongestRangeCheckpoint (fuel : Nat) (ranges : List RangeMetadata) : Option (List RangeMetadata) :=
  let byMin startEpoch := ranges.filter fun r => r.MinEpoch = startEpoch
  (findLongestRangeCheckpointStartingAt byMin fuel 0 []).map Prod.fst

/-- Each range starts after the one before it, and the first one at this epoch. -/
def Contiguous : Int → List RangeMetadata → Prop
  | _, [] => True
  | startEpoch, r :: rest => r.MinEpoch = startEpoch ∧ Contiguous (r.MaxEpoch + 1) rest

def Proper (ranges : List RangeMetadata) : Prop := ∀ r ∈ ranges, 0 ≤ r.MinEpoch ∧ r.MinEpoch < r.MaxEpoch

structure Chain (ranges : List RangeMetadata) (startEpoch : Int) (l : List RangeMetadata) : Prop where
  subset : l ⊆ ranges
  contiguous : Contiguous startEpoch l

/-- A chain that no other one from the same epoch goes beyond, or is shorter than at the same end. -/
structure Longest (ranges : List RangeMetadata) (startEpoch : Int) (l : List RangeMetadata) : Prop where
  chain : Chain ranges startEpoch l
  best : ∀ other, Chain ranges startEpoch other → other ≠ [] →
    l ≠ [] ∧ lastEpoch other ≤ lastEpoch l ∧ (lastEpoch other = lastEpoch l → l.length ≤ other.length)

@[simp] theorem lastEpoch_nil : lastEpoch [] = -1 := rfl

@[simp] theorem lastEpoch_singleton (r : RangeMetadata) : lastEpoch [r] = r.MaxEpoch := rfl

theorem lastEpoch_cons (r : RangeMetadata) {rest : List RangeMetadata} (more : rest ≠ []) :
    lastEpoch (r :: rest) = lastEpoch rest := by
  cases rest with
  | nil => contradiction
  | cons next rest => simp [lastEpoch,List.getLast?_cons_cons]

variable {ranges : List RangeMetadata} {startEpoch : Int}

theorem Chain.head {r : RangeMetadata} {rest : List RangeMetadata} (chain : Chain ranges startEpoch (r :: rest)) :
    r ∈ ranges ∧ r.MinEpoch = startEpoch ∧ Chain ranges (r.MaxEpoch + 1) rest :=
  ⟨chain.subset List.mem_cons_self,chain.contiguous.1,fun _ member => chain.subset (List.mem_cons_of_mem r member),
    chain.contiguous.2⟩

theorem Chain.cons {r : RangeMetadata} {rest : List RangeMetadata} (member : r ∈ ranges)
    (chain : Chain ranges (r.MaxEpoch + 1) rest) : Chain ranges r.MinEpoch (r :: rest) :=
  ⟨List.cons_subset.mpr ⟨member,chain.subset⟩,rfl,chain.contiguous⟩

/-- A chain of proper ranges ends after it starts. -/
theorem Chain.lt_lastEpoch (proper : Proper ranges) {l : List RangeMetadata} (chain : Chain ranges startEpoch l)
    (some_range : l ≠ []) : startEpoch < lastEpoch l := by
  induction l generalizing startEpoch with
  | nil => contradiction
  | cons r rest ih =>
    obtain ⟨member,starts,after⟩ := chain.head
    have longer := (proper r member).2
    by_cases more : rest = []
    · subst more
      rw [lastEpoch_singleton]
      omega
    · have later := ih after more
      rw [lastEpoch_cons r more]
      omega

/-- With the best chain after a range, the range starts the best of the chains that start with it. -/
theorem Longest.cons (proper : Proper ranges) {r : RangeMetadata} {rest : List RangeMetadata}
    (longest : Longest ranges (r.MaxEpoch + 1) rest) {others : List RangeMetadata}
    (other : Chain ranges (r.MaxEpoch + 1) others) :
    lastEpoch (r :: others) ≤ lastEpoch (r :: rest) ∧
      (lastEpoch (r :: others) = lastEpoch (r :: rest) → (r :: rest).length ≤ (r :: others).length) := by
  by_cases none : others = []
  · subst none
    by_cases last : rest = []
    · subst last
      simp
    · have later := longest.chain.lt_lastEpoch proper last
      rw [lastEpoch_singleton,lastEpoch_cons r last]
      constructor
      · omega
      · intro same
        omega
  · obtain ⟨more,ends,shortest⟩ := longest.best others other none
    rw [lastEpoch_cons r none,lastEpoch_cons r more]
    exact ⟨ends,fun same => Nat.succ_le_succ (shortest same)⟩

section Search

/-- What is remembered is longest. -/
def Remembers (ranges : List RangeMetadata) (memo : Memo) : Prop :=
  ∀ startEpoch l, memo.lookup startEpoch = some l → Longest ranges startEpoch l

/-- The best of the chains that start with the ranges that have been looked at. -/
structure Leading (ranges done : List RangeMetadata) (startEpoch longest : Int) (longestMetadata : List RangeMetadata) :
    Prop where
  chain : Chain ranges startEpoch longestMetadata
  ends : longest = if longestMetadata = [] then 0 else lastEpoch longestMetadata
  some_range : done ≠ [] → longestMetadata ≠ []
  best : ∀ r ∈ done, ∀ rest, Chain ranges startEpoch (r :: rest) →
    lastEpoch (r :: rest) ≤ longest ∧ (lastEpoch (r :: rest) = longest → longestMetadata.length ≤ rest.length + 1)

theorem Leading.next (proper : Proper ranges) {done : List RangeMetadata} {longest : Int} {longestMetadata : List RangeMetadata}
    (leading : Leading ranges done startEpoch longest longestMetadata) {r : RangeMetadata} (member : r ∈ ranges)
    (starts : r.MinEpoch = startEpoch) {rest : List RangeMetadata} (after : Longest ranges (r.MaxEpoch + 1) rest) :
    Leading ranges (done ++ [r]) startEpoch (better longest longestMetadata (r :: rest)).1
      (better longest longestMetadata (r :: rest)).2 := by
  have own : Chain ranges startEpoch (r :: rest) := starts ▸ Chain.cons member after.chain
  have positive : 0 < lastEpoch (r :: rest) := by
    have later := own.lt_lastEpoch proper (by simp)
    have first := (proper r member).1
    omega
  have ends := leading.ends
  simp only [better]
  split
  next wins =>
    refine ⟨own,by simp,by simp,?_⟩
    intro r' mem others chain
    rcases List.mem_append.mp mem with earlier | last
    · obtain ⟨below,shorter⟩ := leading.best r' earlier others chain
      constructor
      · dsimp only
        omega
      · intro same
        dsimp only at same
        have tie : lastEpoch (r' :: others) = longest := by omega
        have fewer := shorter tie
        simp only [List.length_cons] at *
        omega
    · obtain rfl := List.mem_singleton.mp last
      obtain ⟨_,_,other⟩ := chain.head
      exact after.cons proper other
  next loses =>
    have kept : longestMetadata ≠ [] := by
      intro nothing
      rw [if_pos nothing] at ends
      omega
    refine ⟨leading.chain,ends,fun _ => kept,?_⟩
    intro r' mem others chain
    rcases List.mem_append.mp mem with earlier | last
    · exact leading.best r' earlier others chain
    · obtain rfl := List.mem_singleton.mp last
      obtain ⟨_,_,other⟩ := chain.head
      obtain ⟨below,shorter⟩ := after.cons proper other
      simp only [List.length_cons] at *
      constructor
      · omega
      · intro same
        have tie := shorter (by omega)
        omega

theorem Leading.longest {longest : Int} {longestMetadata : List RangeMetadata}
    (leading : Leading ranges (ranges.filter fun r => r.MinEpoch = startEpoch) startEpoch longest longestMetadata) :
    Longest ranges startEpoch longestMetadata := by
  refine ⟨leading.chain,?_⟩
  intro other chain some_range
  cases other with
  | nil => contradiction
  | cons r rest =>
    obtain ⟨member,starts,_⟩ := chain.head
    have looked : r ∈ ranges.filter fun r => r.MinEpoch = startEpoch := List.mem_filter.mpr ⟨member,by simpa using starts⟩
    have kept := leading.some_range (List.ne_nil_of_mem looked)
    have ends := leading.ends
    rw [if_neg kept] at ends
    obtain ⟨below,shorter⟩ := leading.best r looked rest chain
    rw [← ends]
    exact ⟨kept,below,shorter⟩

theorem fold_leading (proper : Proper ranges) {search : Int → Memo → Option (List RangeMetadata × Memo)}
    {cps : List RangeMetadata} (starting : ∀ cp ∈ cps, cp ∈ ranges ∧ cp.MinEpoch = startEpoch)
    (searches : ∀ cp ∈ cps, ∀ memo, Remembers ranges memo → ∃ rest memo', search (cp.MaxEpoch + 1) memo = some (rest,memo') ∧
      Longest ranges (cp.MaxEpoch + 1) rest ∧ Remembers ranges memo')
    {done : List RangeMetadata} {longest : Int} {longestMetadata : List RangeMetadata} {memo : Memo}
    (leading : Leading ranges done startEpoch longest longestMetadata) (remembers : Remembers ranges memo) :
    ∃ longest' longestMetadata' memo', cps.foldlM
        (fun ((longest,longestMetadata),memo) cp => do
          let (rest,memo) ← search (cp.MaxEpoch + 1) memo
          return (better longest longestMetadata (cp :: rest),memo))
        ((longest,longestMetadata),memo) = some ((longest',longestMetadata'),memo') ∧
      Leading ranges (done ++ cps) startEpoch longest' longestMetadata' ∧ Remembers ranges memo' := by
  induction cps generalizing done longest longestMetadata memo with
  | nil => exact ⟨longest,longestMetadata,memo,rfl,by rwa [List.append_nil],remembers⟩
  | cons cp cps ih =>
    obtain ⟨member,starts⟩ := starting cp List.mem_cons_self
    obtain ⟨rest,memo',found,after,remembers'⟩ := searches cp List.mem_cons_self memo remembers
    obtain ⟨longest',longestMetadata',memo'',folded,leading',remembers''⟩ :=
      ih (fun cp' mem => starting cp' (List.mem_cons_of_mem cp mem)) (fun cp' mem => searches cp' (List.mem_cons_of_mem cp mem))
        (leading.next proper member starts after) remembers'
    refine ⟨longest',longestMetadata',memo'',?_,?_,remembers''⟩
    · rw [List.foldlM_cons]
      simp only [found,Option.bind_eq_bind,Option.bind_some,Option.pure_def]
      exact folded
    · rwa [← List.append_cons] at leading'

/-- Ranges that start later are fewer. -/
theorem later_fewer (proper : Proper ranges) {cp : RangeMetadata} (member : cp ∈ ranges) (starts : cp.MinEpoch = startEpoch) :
    (ranges.filter fun r => cp.MaxEpoch + 1 ≤ r.MinEpoch).length < (ranges.filter fun r => startEpoch ≤ r.MinEpoch).length := by
  have longer := (proper cp member).2
  have among : (ranges.filter fun r => cp.MaxEpoch + 1 ≤ r.MinEpoch) =
      (ranges.filter fun r => startEpoch ≤ r.MinEpoch).filter fun r => cp.MaxEpoch + 1 ≤ r.MinEpoch := by
    rw [List.filter_filter]
    refine List.filter_congr ?_
    intro r _
    have implied : cp.MaxEpoch + 1 ≤ r.MinEpoch → startEpoch ≤ r.MinEpoch := by omega
    by_cases after : cp.MaxEpoch + 1 ≤ r.MinEpoch <;> simp [after,implied]
  rw [among,List.length_filter_lt_length_iff_exists]
  refine ⟨cp,List.mem_filter.mpr ⟨member,by simp [starts]⟩,?_⟩
  simp only [decide_eq_true_eq]
  omega

theorem startingAt_longest (proper : Proper ranges) (fuel : Nat) (startEpoch : Int) (memo : Memo)
    (enough : (ranges.filter fun r => startEpoch ≤ r.MinEpoch).length < fuel) (remembers : Remembers ranges memo) :
    ∃ l memo', findLongestRangeCheckpointStartingAt (fun startEpoch => ranges.filter fun r => r.MinEpoch = startEpoch) fuel
        startEpoch memo = some (l,memo') ∧ Longest ranges startEpoch l ∧ Remembers ranges memo' := by
  induction fuel generalizing startEpoch memo with
  | zero => omega
  | succ fuel ih =>
    cases known : memo.lookup startEpoch with
    | some l => exact ⟨l,memo,by simp [findLongestRangeCheckpointStartingAt,known],remembers startEpoch l known,remembers⟩
    | none =>
      have starting : ∀ cp ∈ ranges.filter (fun r => r.MinEpoch = startEpoch), cp ∈ ranges ∧ cp.MinEpoch = startEpoch := by
        intro cp mem
        simpa using mem
      have begin : Leading ranges [] startEpoch 0 [] :=
        ⟨⟨List.nil_subset ranges,trivial⟩,rfl,by simp,by simp⟩
      obtain ⟨longest,longestMetadata,memo',folded,leading,remembers'⟩ := fold_leading proper starting
        (by
          intro cp mem memo remembers
          obtain ⟨member,starts⟩ := starting cp mem
          exact ih (cp.MaxEpoch + 1) memo (by have := later_fewer proper member starts; omega) remembers)
        begin remembers
      have found := leading.longest
      refine ⟨longestMetadata,(startEpoch,longestMetadata) :: memo',?_,found,?_⟩
      · rw [findLongestRangeCheckpointStartingAt,known]
        dsimp only
        rw [folded]
        rfl
      · intro epoch l remembered
        rw [List.lookup_cons] at remembered
        split at remembered
        next same =>
          rw [← Option.some.inj remembered,beq_iff_eq.mp same]
          exact found
        next => exact remembers' epoch l remembered

/-- More fuel leaves a result as it is. -/
theorem startingAt_mono {byMin : Int → List RangeMetadata} {fuel fuel' : Nat} (le : fuel ≤ fuel') {startEpoch : Int}
    {memo : Memo} {result : List RangeMetadata × Memo}
    (done : findLongestRangeCheckpointStartingAt byMin fuel startEpoch memo = some result) :
    findLongestRangeCheckpointStartingAt byMin fuel' startEpoch memo = some result := by
  induction fuel generalizing fuel' startEpoch memo result with
  | zero => simp [findLongestRangeCheckpointStartingAt] at done
  | succ fuel ih =>
    obtain ⟨fuel',rfl⟩ : ∃ less, fuel' = less + 1 := ⟨fuel' - 1,by omega⟩
    rw [findLongestRangeCheckpointStartingAt] at done ⊢
    cases known : memo.lookup startEpoch with
    | some l =>
      rw [known] at done
      exact done
    | none =>
      rw [known] at done
      dsimp only at done ⊢
      rw [Option.bind_eq_bind,Option.bind_eq_some_iff] at done ⊢
      obtain ⟨found,folded,rest⟩ := done
      refine ⟨found,Results.foldlM_option_mono ?_ folded,rest⟩
      rintro ⟨⟨longest,longestMetadata⟩,memo⟩ cp t one
      dsimp only at one ⊢
      rw [Option.bind_eq_bind,Option.bind_eq_some_iff] at one ⊢
      obtain ⟨sub,searched,rest⟩ := one
      exact ⟨sub,ih (by omega) searched,rest⟩

end Search

theorem findLongestRangeCheckpoint_ends {ranges : List RangeMetadata} (proper : Proper ranges) :
    ∃ l, (∀ fuel > ranges.length, findLongestRangeCheckpoint fuel ranges = some l) ∧ Longest ranges 0 l := by
  have few : (ranges.filter fun r => 0 ≤ r.MinEpoch).length < ranges.length + 1 :=
    Nat.lt_succ_of_le (List.length_filter_le _ ranges)
  obtain ⟨l,memo,found,longest,_⟩ :=
    startingAt_longest proper (ranges.length + 1) 0 [] few (by intro e l known; simp at known)
  refine ⟨l,?_,longest⟩
  intro fuel enough
  have more := startingAt_mono enough found
  unfold findLongestRangeCheckpoint
  dsimp only
  rw [more]
  rfl

/-- Whatever the search has found is longest. -/
theorem longest_of_found {ranges : List RangeMetadata} (proper : Proper ranges) {fuel : Nat} {l : List RangeMetadata}
    (found : findLongestRangeCheckpoint fuel ranges = some l) : Longest ranges 0 l := by
  obtain ⟨l',ends,longest⟩ := findLongestRangeCheckpoint_ends proper
  unfold findLongestRangeCheckpoint at found
  obtain ⟨result,searched,rfl⟩ := Option.map_eq_some_iff.mp found
  have same := ends (max fuel (ranges.length + 1)) (by omega)
  unfold findLongestRangeCheckpoint at same
  dsimp only at same
  rw [startingAt_mono (Nat.le_max_left _ _) searched] at same
  obtain rfl : result.1 = l' := Option.some.inj same
  exact longest

/-- The search ends with the chain that goes furthest in the fewest ranges. It is empty only where no range starts at 0. -/
theorem findLongestRangeCheckpoint_furthest {ranges : List RangeMetadata} (proper : Proper ranges) :
    ∃ l, (∀ fuel > ranges.length, findLongestRangeCheckpoint fuel ranges = some l) ∧ Longest ranges 0 l ∧
      (l = [] ↔ ∀ r ∈ ranges, r.MinEpoch ≠ 0) := by
  obtain ⟨l,ends,longest⟩ := findLongestRangeCheckpoint_ends proper
  refine ⟨l,ends,longest,?_⟩
  constructor
  · rintro rfl r member starts
    have alone : Chain ranges 0 [r] := starts ▸ Chain.cons member ⟨List.nil_subset ranges,trivial⟩
    exact (longest.best [r] alone (by simp)).1 rfl
  · intro nowhere
    cases l with
    | nil => rfl
    | cons r rest =>
      obtain ⟨member,starts,_⟩ := longest.chain.head
      exact absurd starts (nowhere r member)

def overlappingRanges : List RangeMetadata := [⟨0,1,[]⟩,⟨2,5,[]⟩,⟨0,3,[]⟩,⟨4,5,[]⟩,⟨0,5,[]⟩]

theorem findLongestRangeCheckpoint_furthest_overlapping : ∃ l,
    (∀ fuel > overlappingRanges.length, findLongestRangeCheckpoint fuel overlappingRanges = some l) ∧
      Longest overlappingRanges 0 l ∧ (l = [] ↔ ∀ r ∈ overlappingRanges, r.MinEpoch ≠ 0) := by
  refine findLongestRangeCheckpoint_furthest ?_
  unfold Proper
  decide

end Vbe.Epoch
