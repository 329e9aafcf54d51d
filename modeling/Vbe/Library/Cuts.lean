import Mathlib.Data.List.Basic

/-! Cutting a stream into segments. A machine reads the stream one element at a time and says
after which elements it cuts; a scanner reads whole buffers and stops at the first cut. A
scanner that agrees with a machine on every buffer finds the cuts of the stream, whatever
the buffers are. -/
namespace Vbe.Library.Cuts

variable {σ ρ α : Type}

section Machines
variable (step : ρ → α → ρ × Bool)

def after (r : ρ) (stream : List α) : ρ :=
  stream.foldl (fun r x => (step r x).1) r

/-- The positions after which the machine cuts the stream, which starts at a position. -/
def cuts : ρ → Nat → List α → List Nat
  | _,_,[] => []
  | r,position,x :: stream =>
    if (step r x).2 then (position + 1) :: cuts (step r x).1 (position + 1) stream
    else cuts (step r x).1 (position + 1) stream

/-- The machine on one buffer, up to the first cut. -/
def scan : ρ → List α → ρ × Option Nat
  | r,[] => (r,none)
  | r,x :: buffer =>
    if (step r x).2 then ((step r x).1,some 1)
    else ((scan (step r x).1 buffer).1,(scan (step r x).1 buffer).2.map (· + 1))

variable {step}

attribute [local simp] cuts scan

theorem cuts_append (r : ρ) (position : Nat) (front back : List α) :
    cuts step r position (front ++ back) =
      cuts step r position front ++ cuts step (after step r front) (position + front.length) back := by
  induction front generalizing r position with
  | nil => rfl
  | cons x front ih =>
    have count : position + 1 + front.length = position + (front.length + 1) := by omega
    simp only [List.cons_append,cuts,ih,after,List.foldl_cons,List.length_cons,count]
    split
    · rfl
    · rfl

theorem scan_length {r : ρ} {buffer : List α} {n : Nat} (found : (scan step r buffer).2 = some n) :
    0 < n ∧ n ≤ buffer.length := by
  induction buffer generalizing r n with
  | nil => simp [scan] at found
  | cons x buffer ih =>
    rw [scan] at found
    split at found
    · simp only [Option.some.injEq] at found
      simp [← found]
    · obtain ⟨m,later,rfl⟩ := Option.map_eq_some_iff.mp found
      have := ih later
      simp only [List.length_cons]
      omega

/-- A buffer without a cut is read to its end. -/
theorem scan_none {r : ρ} {buffer : List α} (none : (scan step r buffer).2 = none) (position : Nat) :
    cuts step r position buffer = [] ∧ (scan step r buffer).1 = after step r buffer := by
  induction buffer generalizing r position with
  | nil => exact ⟨rfl,rfl⟩
  | cons x buffer ih =>
    rw [scan] at none
    split at none
    · contradiction
    next open' =>
      have rest := ih (Option.map_eq_none_iff.mp none) (position + 1)
      rw [cuts,scan,if_neg open',if_neg open']
      exact rest

/-- The first cut of a buffer is the first cut of the stream, and the state there is the machine's. -/
theorem scan_some {r : ρ} {buffer : List α} {n : Nat} (found : (scan step r buffer).2 = some n) (position : Nat) :
    cuts step r position (buffer.take n) = [position + n] ∧ (scan step r buffer).1 = after step r (buffer.take n) := by
  induction buffer generalizing r n position with
  | nil => simp [scan] at found
  | cons x buffer ih =>
    rw [scan] at found
    split at found
    next cut =>
      simp only [Option.some.injEq] at found
      subst found
      rw [scan,if_pos cut]
      simp [cuts,cut,after]
    next open' =>
      obtain ⟨m,later,rfl⟩ := Option.map_eq_some_iff.mp found
      obtain ⟨cut,state⟩ := ih later (position + 1)
      have count : position + 1 + m = position + (m + 1) := by omega
      rw [scan,if_neg open']
      constructor
      · rw [List.take_succ_cons,cuts,if_neg open',cut,count]
      · exact state

/-- A buffer whose elements the machine passes without a cut is skipped. -/
theorem scan_append {r : ρ} {front back : List α} (passed : (scan step r front).2 = none) :
    scan step r (front ++ back) =
      ((scan step (after step r front) back).1,(scan step (after step r front) back).2.map (front.length + ·)) := by
  induction front generalizing r with
  | nil => simp [after]
  | cons x front ih =>
    rw [scan] at passed
    split at passed
    · contradiction
    next open' =>
      have rest := ih (Option.map_eq_none_iff.mp passed)
      simp only [List.cons_append,scan,if_neg open',rest,after,List.foldl_cons,Option.map_map]
      congr 2
      ext m
      simp only [Function.comp_apply,List.length_cons]
      omega

/-- What follows the first cut is not read. -/
theorem scan_append_cut {r : ρ} {front : List α} {n : Nat} (found : (scan step r front).2 = some n) (back : List α) :
    scan step r (front ++ back) = scan step r front := by
  induction front generalizing r n with
  | nil => simp [scan] at found
  | cons x front ih =>
    rw [scan] at found
    rw [List.cons_append,scan,scan]
    split at found
    next cut => rw [if_pos cut,if_pos cut]
    next open' =>
      obtain ⟨m,later,rfl⟩ := Option.map_eq_some_iff.mp found
      rw [if_neg open',if_neg open',ih later]

end Machines

section Buffers
variable (next : σ → List α → σ × Option Nat)

/-- The scanner on one buffer: it goes on with the rest of the buffer after every cut. There
is no answer where the rest would not be shorter, or where it would not exist. -/
def feed (s : σ) (position : Nat) (buffer : List α) : Option (σ × List Nat) :=
  if buffer = [] then some (s,[]) else
  match (next s buffer).2 with
  | none => some ((next s buffer).1,[])
  | some n =>
    if 0 < n ∧ n ≤ buffer.length then
      (feed (next s buffer).1 (position + n) (buffer.drop n)).map fun r => (r.1,(position + n) :: r.2)
    else none
termination_by buffer.length
decreasing_by
  rw [List.length_drop]
  omega

/-- The cuts found in a stream that comes in buffers. -/
def feedAll : σ → Nat → List (List α) → Option (List Nat)
  | _,_,[] => some []
  | s,position,buffer :: buffers =>
    match feed next s position buffer with
    | none => none
    | some (s',found) => (feedAll s' (position + buffer.length) buffers).map (found ++ ·)

variable {next}

/-- The scanner answers every buffer as the machine does, and follows it. -/
def Follows (next : σ → List α → σ × Option Nat) (step : ρ → α → ρ × Bool) (R : σ → ρ → Prop) : Prop :=
  ∀ s r, R s r → ∀ buffer, (next s buffer).2 = (scan step r buffer).2 ∧ R (next s buffer).1 (scan step r buffer).1

variable {step : ρ → α → ρ × Bool} {R : σ → ρ → Prop}

theorem Follows.feed (follows : Follows next step R) {s : σ} {r : ρ} (related : R s r) (position : Nat) (buffer : List α) :
    ∃ s', Cuts.feed next s position buffer = some (s',cuts step r position buffer) ∧ R s' (after step r buffer) := by
  induction size : buffer.length using Nat.strongRecOn generalizing s r position buffer with
  | ind size ih =>
    subst size
    obtain ⟨same,state⟩ := follows s r related buffer
    rw [Cuts.feed]
    split
    next empty =>
      subst empty
      exact ⟨s,rfl,related⟩
    next nonempty =>
      split
      next none =>
        obtain ⟨passed,last⟩ := scan_none (same.symm.trans none) position
        refine ⟨(next s buffer).1,by rw [passed],?_⟩
        rw [← last]
        exact state
      next n found =>
        have bound := scan_length (same.symm.trans found)
        obtain ⟨cut,last⟩ := scan_some (same.symm.trans found) position
        have shorter : (buffer.drop n).length < buffer.length := by
          rw [List.length_drop]
          omega
        obtain ⟨s',rest,state'⟩ := ih _ shorter state (position + n) (buffer.drop n) rfl
        have length : (buffer.take n).length = n := List.length_take_of_le bound.2
        have split : cuts step r position (buffer.take n ++ buffer.drop n) = _ :=
          cuts_append r position (buffer.take n) (buffer.drop n)
        rw [List.take_append_drop,cut,← last,length] at split
        refine ⟨s',by rw [if_pos bound,rest,split]; rfl,?_⟩
        rw [last] at state'
        unfold after at state' ⊢
        rwa [← List.foldl_append,List.take_append_drop] at state'

/-- The cuts do not depend on the buffers. -/
theorem Follows.feedAll (follows : Follows next step R) {s : σ} {r : ρ} (related : R s r) (position : Nat)
    (buffers : List (List α)) : Cuts.feedAll next s position buffers = some (cuts step r position buffers.flatten) := by
  induction buffers generalizing s r position with
  | nil => rfl
  | cons buffer buffers ih =>
    obtain ⟨s',found,state⟩ := follows.feed related position buffer
    rw [Cuts.feedAll,found]
    simp only [ih state,List.flatten_cons,cuts_append,Option.map_some]

end Buffers

section Segments

/-- The lengths of the segments between the cuts. -/
def segments : Nat → List Nat → List Nat
  | _,[] => []
  | last,cut :: rest => (cut - last) :: segments cut rest

end Segments

end Vbe.Library.Cuts
