import Mathlib.Algebra.Ring.Nat
import Vbe.Splitter.Splitters

/-! Split points do not depend on the buffers in which a stream is written. The reference cuts
byte by byte where the last bytes of a segment that is long enough match; a splitter that has
skipped bytes holds the same window as soon as it is tested. -/
namespace Vbe.Splitter
open Vbe.Library.Cuts

section Reference

/-- The bytes of the stream, the last one first, and the length of the open segment. -/
structure Progress where
  recent : List UInt8
  count : Nat

def start : Progress := ⟨[],0⟩

variable (hit : List UInt8 → Bool) (minSize maxSize : Nat)

def Progress.splits (p : Progress) : Bool :=
  decide (maxSize ≤ p.count) || (decide (minSize ≤ p.count) && hit (p.recent.take splitterSlidingWindowSize))

def Progress.add (p : Progress) (x : UInt8) : Progress := ⟨x :: p.recent,p.count + 1⟩

def Progress.step (p : Progress) (x : UInt8) : Progress × Bool :=
  if (p.add x).splits hit minSize maxSize then (⟨(p.add x).recent,0⟩,true) else (p.add x,false)

variable {hit minSize maxSize}

theorem Progress.splits_length {p : Progress} (ordered : minSize ≤ maxSize)
    (cut : p.splits hit minSize maxSize = true) : minSize ≤ p.count := by
  rcases Bool.or_eq_true_iff.mp cut with reached | matched
  · exact Nat.le_trans ordered (of_decide_eq_true reached)
  · exact of_decide_eq_true (Bool.and_eq_true_iff.mp matched).1

theorem Progress.splits_below {p : Progress} (passed : p.splits hit minSize maxSize = false) : p.count < maxSize := by
  by_contra full
  have reached : maxSize ≤ p.count := by omega
  simp [Progress.splits,reached] at passed

theorem Progress.step_cut {p : Progress} {x : UInt8} (cut : (p.add x).splits hit minSize maxSize = true) :
    p.step hit minSize maxSize x = (⟨(p.add x).recent,0⟩,true) := if_pos cut

theorem Progress.step_open {p : Progress} {x : UInt8} (passed : (p.add x).splits hit minSize maxSize = false) :
    p.step hit minSize maxSize x = (p.add x,false) := by
  rw [step,passed]
  rfl

theorem scan_below (hit : List UInt8 → Bool) {p : Progress} {b : List UInt8} (ordered : minSize ≤ maxSize) (below : p.count + b.length < minSize) :
    scan (Progress.step hit minSize maxSize) p b = (⟨b.reverse ++ p.recent,p.count + b.length⟩,none) := by
  induction b generalizing p with
  | nil => rfl
  | cons x b ih =>
    simp only [List.length_cons] at below
    have passed : (p.add x).splits hit minSize maxSize = false := by
      have small : ¬ minSize ≤ (p.add x).count := by simp only [Progress.add]; omega
      have open' : ¬ maxSize ≤ (p.add x).count := by omega
      simp [Progress.splits,small,open']
    have rest : scan (Progress.step hit minSize maxSize) (p.add x) b =
        (⟨b.reverse ++ (p.add x).recent,(p.add x).count + b.length⟩,none) := by
      apply ih
      simp only [Progress.add]
      omega
    have count : p.count + 1 + b.length = p.count + (b.length + 1) := by omega
    rw [scan,Progress.step_open passed,rest]
    simp [Progress.add,count]

/-- Every segment that is cut off is at least the minimum and at most the maximum long. -/
theorem segments_within (ordered : minSize ≤ maxSize) {p : Progress} {position : Nat} (below : p.count < maxSize)
    (inside : p.count ≤ position) (stream : List UInt8) :
    ∀ n ∈ segments (position - p.count) (cuts (Progress.step hit minSize maxSize) p position stream),
      minSize ≤ n ∧ n ≤ maxSize := by
  induction stream generalizing p position with
  | nil => simp [cuts,segments]
  | cons x stream ih =>
    rw [cuts]
    cases cut : (p.add x).splits hit minSize maxSize with
    | true =>
      have long : minSize ≤ p.count + 1 := Progress.splits_length ordered cut
      have rest := @ih ⟨(p.add x).recent,0⟩ (position + 1) (by simp only; omega) (by simp only; omega)
      rw [Progress.step_cut cut,if_pos rfl]
      simp only [segments,List.mem_cons]
      rintro n (rfl | member)
      · omega
      · exact rest n member
    | false =>
      have short := Progress.splits_below cut
      have rest := @ih (p.add x) (position + 1) short (by simp only [Progress.add]; omega)
      have first : position + 1 - (p.add x).count = position - p.count := by simp only [Progress.add]; omega
      rw [first] at rest
      rw [Progress.step_open cut]
      exact rest

end Reference

section Windows
variable {W : Type} {hash : RollingHash W} {rh : hash.State} {recent : List UInt8} {n : Nat}

/-- The hash was rolled over a string that ends like the stream does, on some length. -/
def Holds (hash : RollingHash W) (rh : hash.State) (recent : List UInt8) (n : Nat) : Prop :=
  ∃ rolled w : List UInt8, (∀ b, hash.Sum (hash.rolls rh b) = hash.Sum (hash.rolls hash.initial (rolled.reverse ++ b))) ∧
    w <+: rolled ∧ w <+: recent ∧ w.length = n

theorem Holds.shorter (holds : Holds hash rh recent n) {m : Nat} (less : m ≤ n) : Holds hash rh recent m := by
  obtain ⟨rolled,w,sums,own,same,length⟩ := holds
  refine ⟨rolled,w.take m,sums,(List.take_prefix m w).trans own,(List.take_prefix m w).trans same,?_⟩
  rw [List.length_take]
  omega

theorem Holds.rolls (holds : Holds hash rh recent n) (b : List UInt8) :
    Holds hash (hash.rolls rh b) (b.reverse ++ recent) (n + b.length) := by
  obtain ⟨rolled,w,sums,own,same,length⟩ := holds
  refine ⟨b.reverse ++ rolled,b.reverse ++ w,?_,?_,?_,?_⟩
  · intro c
    rw [← hash.rolls_append,sums]
    simp
  · exact (List.prefix_append_right_inj _).mpr own
  · exact (List.prefix_append_right_inj _).mpr same
  · rw [List.length_append,List.length_reverse,length]
    omega

/-- Rolling over the end of what is skipped is enough. -/
theorem Holds.skips (holds : Holds hash rh recent n) (b : List UInt8) :
    Holds hash (hash.rolls rh (b.drop (b.length - splitterSlidingWindowSize))) (b.reverse ++ recent)
      (min (n + b.length) splitterSlidingWindowSize) := by
  by_cases short : b.length ≤ splitterSlidingWindowSize
  · rw [Nat.sub_eq_zero_of_le short,List.drop_zero]
    exact (holds.rolls b).shorter (Nat.min_le_left _ _)
  · obtain ⟨rolled,w,sums,own,same,length⟩ := (holds.rolls (b.drop (b.length - splitterSlidingWindowSize))).shorter
      (show splitterSlidingWindowSize ≤ _ by rw [List.length_drop]; omega)
    have size : w.length = min (n + b.length) splitterSlidingWindowSize := by omega
    refine ⟨rolled,w,sums,own,?_,size⟩
    have enough : w <+: (b.drop (b.length - splitterSlidingWindowSize)).reverse := by
      refine List.prefix_of_prefix_length_le same (List.prefix_append _ _) ?_
      rw [List.length_reverse,List.length_drop]
      omega
    rw [List.reverse_drop] at enough
    have last : w <+: b.reverse := enough.trans (by
      have := List.take_prefix (b.length - (b.length - splitterSlidingWindowSize)) b.reverse
      simpa using this)
    exact last.trans (List.prefix_append _ _)

/-- A full window determines the sum. -/
theorem Holds.sum (windowed : hash.Windowed) (holds : Holds hash rh recent n) (full : splitterSlidingWindowSize ≤ n) :
    hash.Sum rh = hash.Sum (hash.rolls hash.initial (recent.take splitterSlidingWindowSize).reverse) := by
  obtain ⟨rolled,w,sums,own,same,length⟩ := holds.shorter full
  obtain ⟨before,rfl⟩ := own
  obtain ⟨older,rfl⟩ := same
  have here := sums []
  rw [hash.rolls_nil,List.append_nil,List.reverse_append] at here
  have size : w.reverse.length = splitterSlidingWindowSize := by rw [List.length_reverse,length]
  rw [here,windowed.window before.reverse [] w.reverse size,List.nil_append,← length,List.take_left]

end Windows

section Simulation
variable {W : Type} {hash : RollingHash W} {matched : W → W → Bool} {mask : W} {minSize maxSize : Nat}

/-- Whether the last bytes of the stream match. -/
def hits (hash : RollingHash W) (matched : W → W → Bool) (mask : W) (recent : List UInt8) : Bool :=
  matched (hash.Sum (hash.rolls hash.initial recent.reverse)) mask

/-- A splitter in use: what it will test is what the stream holds. -/
structure Synced (hash : RollingHash W) (mask : W) (least most : Nat) (rs : RollingSplitter hash.State W)
    (p : Progress) : Prop where
  mask : rs.mask = mask
  minSize : rs.minSize = least
  maxSize : rs.maxSize = most
  count : rs.count = p.count
  below : p.count < most
  holds : Holds hash rs.rh p.recent (min p.count splitterSlidingWindowSize)

open RollingSplitter

/-- What the tested part of a buffer ends with. -/
def finish (maxSize total : Nat) : hash.State × Nat × Option Nat → hash.State × Nat × Option Nat
  | (rh,count,some i) => (rh,count,some i)
  | (rh,count,none) => if count ≥ maxSize then (rh,0,some total) else (rh,count,none)

/-- The outcome for a part of a buffer is that of the reference, counted from `i`. -/
structure Agrees (hash : RollingHash W) (i : Nat) (out : hash.State × Nat × Option Nat)
    (expected : Progress × Option Nat) : Prop where
  count : out.2.1 = expected.1.count
  found : out.2.2 = expected.2.map (i + ·)
  holds : Holds hash out.1 expected.1.recent (min expected.1.count splitterSlidingWindowSize)

theorem finish_rollUntil (matched : W → W → Bool) (mask : W) (windowed : hash.Windowed) (wide : splitterSlidingWindowSize ≤ minSize)
    {rh : hash.State} {p : Progress} {i : Nat} {b : List UInt8} (tested : b ≠ [] → minSize ≤ p.count + 1)
    (below : p.count < maxSize) (fits : p.count + b.length ≤ maxSize)
    (holds : Holds hash rh p.recent (min p.count splitterSlidingWindowSize)) :
    Agrees hash i (finish maxSize (i + b.length) (rollUntil hash matched mask rh p.count i b))
      (scan (Progress.step (hits hash matched mask) minSize maxSize) p b) := by
  induction b generalizing rh p i with
  | nil =>
    have below' : ¬ p.count ≥ maxSize := by omega
    rw [rollUntil,finish,if_neg below']
    exact ⟨rfl,rfl,holds⟩
  | cons x b ih =>
    have window : Holds hash (hash.Roll rh x) (p.add x).recent (min (p.add x).count splitterSlidingWindowSize) := by
      apply (holds.rolls [x]).shorter
      simp only [Progress.add,List.length_singleton]
      omega
    have long : minSize ≤ (p.add x).count := tested (List.cons_ne_nil x b)
    have sum : matched (hash.Sum (hash.Roll rh x)) mask =
        hits hash matched mask ((p.add x).recent.take splitterSlidingWindowSize) := by
      rw [hits,window.sum windowed (by omega)]
    rw [rollUntil,scan]
    cases hit : matched (hash.Sum (hash.Roll rh x)) mask with
    | true =>
      have cut : (p.add x).splits (hits hash matched mask) minSize maxSize = true := by
        rw [Progress.splits,← sum,hit]
        simp [long]
      rw [Progress.step_cut cut,if_pos rfl,if_pos rfl]
      exact ⟨rfl,rfl,window.shorter (Nat.zero_le _)⟩
    | false =>
      rw [if_neg Bool.false_ne_true]
      simp only [List.length_cons] at fits
      by_cases full : maxSize ≤ (p.add x).count
      · have empty : b = [] := List.eq_nil_of_length_eq_zero (by simp only [Progress.add] at full; omega)
        have cut : (p.add x).splits (hits hash matched mask) minSize maxSize = true := by
          simp [Progress.splits,full]
        have reached : p.count + 1 ≥ maxSize := full
        rw [empty,Progress.step_cut cut,if_pos rfl,rollUntil,finish,if_pos reached]
        exact ⟨rfl,rfl,window.shorter (Nat.zero_le _)⟩
      · have passed : (p.add x).splits (hits hash matched mask) minSize maxSize = false := by
          rw [Progress.splits,← sum,hit]
          simp [full]
        have total : i + 1 + b.length = i + (x :: b).length := by simp only [List.length_cons]; omega
        have rest := @ih (hash.Roll rh x) (p.add x) (i + 1) (fun _ => Nat.le_succ_of_le long) (by omega)
          (by simp only [Progress.add]; omega) window
        rw [total] at rest
        rw [Progress.step_open passed,if_neg Bool.false_ne_true]
        refine ⟨rest.count,rest.found.trans ?_,rest.holds⟩
        rw [Option.map_map]
        congr 1
        ext m
        simp only [Function.comp_apply]
        omega

/-- A part of a buffer where the outcome is open was read up to the end. -/
theorem finish_none {total : Nat} {out : hash.State × Nat × Option Nat} (open' : (finish maxSize total out).2.2 = none) :
    (finish maxSize total out).2.1 < maxSize := by
  obtain ⟨rh,count,found⟩ := out
  cases found with
  | some i => simp [finish] at open'
  | none =>
    rw [finish] at open' ⊢
    split at open'
    · contradiction
    next below =>
      rw [if_neg below]
      exact Nat.lt_of_not_le below

theorem nextTested_eq {rs : RollingSplitter hash.State W} (left : rs.maxSize - rs.count > 0) (fast : Nat) (b : List UInt8) :
    let fp := if rs.maxSize - rs.count ≥ b.length then b.length else rs.maxSize - rs.count
    let out := finish rs.maxSize fp (rollUntil hash matched rs.mask rs.rh rs.count 0 (b.take fp))
    rs.nextTested hash matched fast b = ({rs with rh := out.1,count := out.2.1},out.2.2.map (fast + ·)) := by
  intro fp out
  simp only [nextTested,left,if_true]
  simp only [out]
  generalize rollUntil hash matched rs.mask rs.rh rs.count 0 (b.take fp) = tested
  obtain ⟨rh,count,found⟩ := tested
  cases found with
  | some i => rfl
  | none =>
    simp only [finish,splitAtMax]
    split
    · rfl
    · rfl

theorem fastPathBytes_spec (rs : RollingSplitter hash.State W) (b : List UInt8) :
    rs.fastPathBytes hash b ≤ b.length ∧ (rs.fastPathBytes hash b = 0 ∨ rs.count + rs.fastPathBytes hash b < rs.minSize) ∧
      (b.length ≤ rs.fastPathBytes hash b ∨ rs.minSize ≤ rs.count + rs.fastPathBytes hash b + 1) := by
  simp only [fastPathBytes]
  split
  · split
    · omega
    · omega
  · omega

/-- The bytes that are skipped are cut nowhere, and the window holds what it will need of them. -/
theorem skipped (ordered : minSize ≤ maxSize) {rs : RollingSplitter hash.State W} {p : Progress}
    (synced : Synced hash mask minSize maxSize rs p) (b : List UInt8) :
    let fast := rs.fastPathBytes hash b
    let passed : Progress := ⟨(b.take fast).reverse ++ p.recent,p.count + fast⟩
    scan (Progress.step (hits hash matched mask) minSize maxSize) p (b.take fast) = (passed,none) ∧
      Synced hash mask minSize maxSize
        {rs with rh := hash.rolls rs.rh ((b.take fast).drop (fast - splitterSlidingWindowSize)),count := rs.count + fast} passed := by
  intro fast passed
  obtain ⟨inside,short,_⟩ := fastPathBytes_spec rs b
  have length : (b.take fast).length = fast := List.length_take_of_le inside
  have same := synced.count
  have least := synced.minSize
  have below := synced.below
  constructor
  · cases short with
    | inl zero =>
      have none : fast = 0 := zero
      simp [passed,none,scan]
    | inr small =>
      have cut := scan_below (hits hash matched mask) ordered
        (show p.count + (b.take fast).length < minSize by omega)
      rwa [length] at cut
  · refine ⟨synced.mask,synced.minSize,synced.maxSize,?_,?_,?_⟩
    · simp only [passed,same]
    · simp only [passed]
      omega
    · have window := synced.holds.skips (b.take fast)
      rw [length] at window
      apply window.shorter
      simp only [passed]
      omega

theorem scan_count {hit : List UInt8 → Bool} {p : Progress} {b : List UInt8}
    (none : (scan (Progress.step hit minSize maxSize) p b).2 = none) :
    (scan (Progress.step hit minSize maxSize) p b).1.count = p.count + b.length := by
  induction b generalizing p with
  | nil => rfl
  | cons x b ih =>
    cases cut : (p.add x).splits hit minSize maxSize with
    | true =>
      rw [scan,Progress.step_cut cut] at none
      contradiction
    | false =>
      rw [scan,Progress.step_open cut,if_neg Bool.false_ne_true] at none ⊢
      rw [ih (Option.map_eq_none_iff.mp none),List.length_cons]
      simp only [Progress.add]
      omega

theorem scan_below_most (hit : List UInt8 → Bool) (minSize : Nat) {p : Progress} (below : p.count < maxSize) (b : List UInt8) :
    (scan (Progress.step hit minSize maxSize) p b).1.count < maxSize := by
  induction b generalizing p with
  | nil => exact below
  | cons x b ih =>
    cases cut : (p.add x).splits hit minSize maxSize with
    | true =>
      rw [scan,Progress.step_cut cut]
      exact Nat.zero_lt_of_lt below
    | false =>
      rw [scan,Progress.step_open cut,if_neg Bool.false_ne_true]
      exact ih (Progress.splits_below cut)

theorem nextTested_follows (matched : W → W → Bool) (windowed : hash.Windowed) (wide : splitterSlidingWindowSize ≤ minSize)
    {rs : RollingSplitter hash.State W} {p : Progress} (synced : Synced hash mask minSize maxSize rs p) (fast : Nat)
    {b : List UInt8} (tested : b ≠ [] → minSize ≤ p.count + 1) :
    (rs.nextTested hash matched fast b).2 =
        (scan (Progress.step (hits hash matched mask) minSize maxSize) p b).2.map (fast + ·) ∧
      Synced hash mask minSize maxSize (rs.nextTested hash matched fast b).1
        (scan (Progress.step (hits hash matched mask) minSize maxSize) p b).1 := by
  obtain ⟨sameMask,least,most,same,below,holds⟩ := synced
  have left : rs.maxSize - rs.count > 0 := by omega
  let fp := if rs.maxSize - rs.count ≥ b.length then b.length else rs.maxSize - rs.count
  have inside : fp ≤ b.length ∧ p.count + fp ≤ maxSize ∧ (fp = b.length ∨ p.count + fp = maxSize) := by
    simp only [fp]
    split
    · omega
    · omega
  have length : (b.take fp).length = fp := List.length_take_of_le inside.1
  have agrees := finish_rollUntil matched mask (i := 0) windowed wide
    (fun some => tested fun none => some (by rw [none,List.take_nil])) below (by omega) holds (b := b.take fp)
  rw [length,Nat.zero_add,← same,← sameMask,← most] at agrees
  have whole : scan (Progress.step (hits hash matched rs.mask) minSize rs.maxSize) p b =
      scan (Progress.step (hits hash matched rs.mask) minSize rs.maxSize) p (b.take fp) := by
    cases found : (scan (Progress.step (hits hash matched rs.mask) minSize rs.maxSize) p (b.take fp)).2 with
    | some n =>
      have cut := scan_append_cut found (b.drop fp)
      rwa [List.take_append_drop] at cut
    | none =>
      have count := scan_count found
      have less := scan_below_most (hits hash matched rs.mask) minSize (most ▸ below) (b.take fp)
      have all : fp = b.length := by omega
      rw [all,List.take_length]
  rw [nextTested_eq left,← sameMask,← most,whole]
  refine ⟨?_,rfl,least,rfl,agrees.count,scan_below_most _ _ (most ▸ below) _,agrees.holds⟩
  have found := agrees.found
  simp only [Nat.zero_add,Option.map_id'] at found
  exact congrArg (Option.map (fast + ·)) found

/-- A splitter answers every buffer as the reference does. -/
theorem follows_rolling (windowed : hash.Windowed) (wide : splitterSlidingWindowSize ≤ minSize) (ordered : minSize ≤ maxSize) :
    Follows (NextSplitPoint hash matched) (Progress.step (hits hash matched mask) minSize maxSize)
      (Synced hash mask minSize maxSize) := by
  intro rs p synced b
  obtain ⟨inside,_,tested⟩ := fastPathBytes_spec rs b
  obtain ⟨passed,synced'⟩ := skipped ordered synced b
  have least := synced.minSize
  have same := synced.count
  have length : (b.take (rs.fastPathBytes hash b)).length = rs.fastPathBytes hash b := List.length_take_of_le inside
  have rest := nextTested_follows matched windowed wide synced' (rs.fastPathBytes hash b)
    (b := b.drop (rs.fastPathBytes hash b)) (fun some => by
      have more : rs.fastPathBytes hash b < b.length := by
        by_contra none
        exact some (List.drop_eq_nil_of_le (by omega))
      simp only
      omega)
  have whole : scan _ p (b.take (rs.fastPathBytes hash b) ++ b.drop (rs.fastPathBytes hash b)) = _ :=
    scan_append (congrArg Prod.snd passed)
  rw [List.take_append_drop,← (scan_none (congrArg Prod.snd passed) 0).2,passed,length] at whole
  rw [whole]
  exact rest

theorem synced_start {rs : RollingSplitter hash.State W} (sameMask : rs.mask = mask) (least : rs.minSize = minSize)
    (most : rs.maxSize = maxSize) (count : rs.count = 0) (positive : 0 < maxSize)
    (sums : ∀ b, hash.Sum (hash.rolls rs.rh b) = hash.Sum (hash.rolls hash.initial b)) :
    Synced hash mask minSize maxSize rs start :=
  ⟨sameMask,least,most,count,positive,[],[],sums,List.prefix_rfl,List.prefix_rfl,rfl⟩

end Simulation

section FixedLength
variable {length : Nat}

/-- The fixed splitter: a segment is as long as it may be. -/
def Filled (length : Nat) (s : FixedSplitter) (p : Progress) : Prop :=
  s.chunkLength = length ∧ s.cur = p.count ∧ p.count < length

theorem scan_fixed {p : Progress} {b : List UInt8} (below : p.count < length) (enough : length ≤ p.count + b.length) :
    (scan (Progress.step (fun _ => false) length length) p b).1.count = 0 ∧
      (scan (Progress.step (fun _ => false) length length) p b).2 = some (length - p.count) := by
  induction b generalizing p with
  | nil =>
    rw [List.length_nil] at enough
    omega
  | cons x b ih =>
    rw [List.length_cons] at enough
    cases cut : (p.add x).splits (fun _ => false) length length with
    | true =>
      have full := Progress.splits_length (Nat.le_refl length) cut
      have last : 1 = length - p.count := by
        simp only [Progress.add] at full
        omega
      rw [scan,Progress.step_cut cut,if_pos rfl,← last]
      exact ⟨rfl,rfl⟩
    | false =>
      have more := Progress.splits_below cut
      have rest := ih more (by simp only [Progress.add]; omega)
      rw [scan,Progress.step_open cut,if_neg Bool.false_ne_true]
      refine ⟨rest.1,(congrArg (Option.map (· + 1)) rest.2).trans ?_⟩
      simp only [Progress.add] at more ⊢
      rw [Option.map_some]
      congr 1
      omega

theorem follows_fixed :
    Follows FixedSplitter.NextSplitPoint (Progress.step (fun _ => false) length length) (Filled length) := by
  rintro ⟨cur,most⟩ p ⟨size,same,below⟩ b
  simp only at size same
  subst same size
  rw [FixedSplitter.NextSplitPoint]
  simp only
  split
  next short =>
    rw [scan_below _ (Nat.le_refl most) (by omega)]
    refine ⟨rfl,rfl,rfl,?_⟩
    simp only
    omega
  next enough =>
    obtain ⟨count,found⟩ := scan_fixed below (show most ≤ p.count + b.length by omega)
    refine ⟨found.symm,rfl,count.symm,?_⟩
    omega

end FixedLength

section Stable

/-- Split points are a property of the stream, for every splitter that the factory returns and
in whatever buffers the stream comes; all calls and all finished segments keep their bounds. -/
structure Factory.Stable (f : Factory) (minSize maxSize : Nat) : Prop where
  independent : ∀ s, f.Pooled s → ∀ buffers,
    f.splitPoints s buffers = f.splitPoints f.make (buffers.flatten.map fun x => [x])
  segments : ∀ s, f.Pooled s → ∀ buffers, ∃ points, f.splitPoints s buffers = some points ∧
    ∀ n ∈ segments 0 points, minSize ≤ n ∧ n ≤ maxSize
  inside : ∀ s, f.Pooled s → ∀ buffers b n, (f.NextSplitPoint (f.calls s buffers) b).2 = some n → 1 ≤ n ∧ n ≤ b.length
  largest : ∀ s, f.Pooled s → ∀ buffers, f.MaxSegmentSize (f.calls s buffers) = maxSize

variable {f : Factory} {hit : List UInt8 → Bool} {minSize maxSize : Nat} {R : f.State → Progress → Prop}

theorem calls_follow (follows : Follows f.NextSplitPoint (Progress.step hit minSize maxSize) R) {s : f.State} {p : Progress}
    (related : R s p) (buffers : List (List UInt8)) : ∃ p', R (f.calls s buffers) p' := by
  induction buffers generalizing s p with
  | nil => exact ⟨p,related⟩
  | cons b buffers ih => exact ih (follows s p related b).2

theorem pooled_start (follows : Follows f.NextSplitPoint (Progress.step hit minSize maxSize) R) (made : R f.make start)
    (reset : ∀ s p, R s p → R (f.Reset s) start) {s : f.State} (pooled : f.Pooled s) : R s start := by
  induction pooled with
  | made => exact made
  | recycled _ buffers ih =>
    obtain ⟨p,related⟩ := calls_follow follows ih buffers
    exact reset _ p related

/-- A factory whose splitters follow the reference from their start is stable. -/
theorem stable_of_follows (follows : Follows f.NextSplitPoint (Progress.step hit minSize maxSize) R)
    (made : R f.make start) (reset : ∀ s p, R s p → R (f.Reset s) start) (largest : ∀ s p, R s p → f.MaxSegmentSize s = maxSize)
    (ordered : minSize ≤ maxSize) (positive : 0 < maxSize) : f.Stable minSize maxSize := by
  refine ⟨?_,?_,?_,?_⟩
  · intro s pooled buffers
    have bytes : (buffers.flatten.map fun x => [x]).flatten = buffers.flatten := by
      rw [← List.flatMap_def]
      exact List.flatMap_singleton' _
    rw [Factory.splitPoints,Factory.splitPoints,follows.feedAll (pooled_start follows made reset pooled),
      follows.feedAll made,bytes]
  · intro s pooled buffers
    exact ⟨_,follows.feedAll (pooled_start follows made reset pooled) 0 buffers,
      @segments_within hit minSize maxSize ordered start 0 positive (Nat.le_refl 0) buffers.flatten⟩
  · intro s pooled buffers b n found
    obtain ⟨p,related⟩ := calls_follow follows (pooled_start follows made reset pooled) buffers
    exact scan_length ((follows _ p related b).1.symm.trans found)
  · intro s pooled buffers
    obtain ⟨p,related⟩ := calls_follow follows (pooled_start follows made reset pooled) buffers
    exact largest _ p related

theorem stable_rolling {W : Type} {hash : RollingHash W} (windowed : hash.Windowed) (matched : W → W → Bool) (mask : W)
    (wide : splitterSlidingWindowSize ≤ minSize) (ordered : minSize ≤ maxSize) :
    (rollingFactory hash matched mask minSize maxSize).Stable minSize maxSize := by
  have positive : 0 < maxSize := by
    have window : 0 < splitterSlidingWindowSize := by decide
    omega
  apply stable_of_follows (follows_rolling windowed wide ordered)
  · exact synced_start rfl rfl rfl rfl positive fun _ => rfl
  · intro rs p synced
    exact synced_start synced.mask synced.minSize synced.maxSize rfl positive (windowed.reset rs.rh)
  · intro rs p synced
    exact synced.maxSize
  · exact ordered
  · exact positive

theorem stable_fixed {length : Nat} (positive : 0 < length) : (Fixed length).Stable length length := by
  apply stable_of_follows follows_fixed
  · exact ⟨rfl,rfl,positive⟩
  · intro s p filled
    exact ⟨filled.1,rfl,positive⟩
  · intro s p filled
    exact filled.1
  · exact Nat.le_refl length
  · exact positive

theorem split_points_stable (buz : RollingHash UInt32) (rabin : RollingHash UInt64) (k : Nat) (buzWindowed : buz.Windowed)
    (rabinWindowed : rabin.Windowed) (large : 17 ≤ k) :
    (newBuzHash32SplitterFactory buz (2 ^ k)).Stable (2 ^ k / 2) (2 ^ k * 2) ∧
      (newRabinKarp64SplitterFactory rabin (2 ^ k)).Stable (2 ^ k / 2) (2 ^ k * 2) ∧
      (Fixed (2 ^ k)).Stable (2 ^ k) (2 ^ k) := by
  have least : 2 ^ 17 ≤ 2 ^ k := Nat.pow_le_pow_right (by decide) large
  have wide : splitterSlidingWindowSize ≤ 2 ^ k / 2 := by
    simp only [splitterSlidingWindowSize]
    omega
  have ordered : 2 ^ k / 2 ≤ 2 ^ k * 2 := by omega
  exact ⟨stable_rolling buzWindowed _ _ wide ordered,stable_rolling rabinWindowed _ _ wide ordered,
    stable_fixed (Nat.two_pow_pos k)⟩

/-- A hash of the last bytes of its history, which is kept with the last byte first. -/
def windowHash {W : Type} (sum : List UInt8 → W) : RollingHash W where
  State := List UInt8
  New := []
  Reset := fun _ => []
  Write := fun history b => b.reverse ++ history
  Roll := fun history x => x :: history
  Sum := fun history => sum (history.take splitterSlidingWindowSize).reverse

theorem windowHash_rolls {W : Type} (sum : List UInt8 → W) (history b : List UInt8) :
    (windowHash sum).rolls history b = b.reverse ++ history := by
  induction b generalizing history with
  | nil => rfl
  | cons x b ih =>
    have reversed : (x :: b).reverse ++ history = b.reverse ++ x :: history := by simp
    rw [reversed]
    exact ih (x :: history)

theorem windowHash_windowed {W : Type} (sum : List UInt8 → W) : (windowHash sum).Windowed := by
  constructor
  · intro before other w full
    have window (b : List UInt8) : (windowHash sum).Sum ((windowHash sum).rolls (windowHash sum).initial (b ++ w)) = sum w := by
      have last (history : List UInt8) : ((w.reverse ++ history).take splitterSlidingWindowSize).reverse = w := by
        have size : splitterSlidingWindowSize = w.reverse.length := by rw [List.length_reverse,full]
        rw [size,List.take_left,List.reverse_reverse]
      rw [RollingHash.rolls_append]
      exact (congrArg (windowHash sum).Sum (windowHash_rolls sum _ w)).trans (congrArg sum (last _))
    rw [window,window]
  · intro history b
    rfl

/-- A cyclic polynomial over the bytes of the window. -/
def cyclicSum (w : List UInt8) : UInt32 :=
  w.foldl (fun sum x => (sum <<< 1 ||| sum >>> 31) ^^^ (x.toUInt32 * 0x9e3779b1)) 0

/-- One more bit of a polynomial over two elements, modulo a polynomial of degree 53. -/
def shiftPolynomial (value : UInt64) : UInt64 :=
  if value >>> 52 &&& 1 = 1 then value <<< 1 ^^^ 0x3da3358b4dc173 else value <<< 1

def polynomialSum (w : List UInt8) : UInt64 :=
  w.foldl (fun value x => (List.range 8).foldl (fun value _ => shiftPolynomial value) value ^^^ x.toUInt64) 0

theorem split_points_stable_128K :
    (newBuzHash32SplitterFactory (windowHash cyclicSum) (2 ^ 17)).Stable (2 ^ 17 / 2) (2 ^ 17 * 2) ∧
      (newRabinKarp64SplitterFactory (windowHash polynomialSum) (2 ^ 17)).Stable (2 ^ 17 / 2) (2 ^ 17 * 2) ∧
      (Fixed (2 ^ 17)).Stable (2 ^ 17) (2 ^ 17) :=
  split_points_stable (windowHash cyclicSum) (windowHash polynomialSum) 17 (windowHash_windowed cyclicSum)
    (windowHash_windowed polynomialSum) (by decide)

end Stable

end Vbe.Splitter
