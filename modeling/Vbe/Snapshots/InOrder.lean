import Vbe.Snapshots.Finishing

/-! A restore that ignores no error, or harmless ones only, finishes each directory it began once, after everything in it. -/
namespace Vbe.Snapshots.Restoring
open Vbe.Library Vbe.Parallelwork

variable {paths : Paths} {options : Options}

section Bounds
variable {q : Queue Item Place Copier} {P Q : Nat × Nat → Bool}

theorem placeOwes_le {p : Place} (running : .running p ∈ q.workers) : placeOwes P p ≤ owed P q :=
  Nat.le_add_right_of_le (Queue.le_total _ _ running)

theorem attends_le {p : Place} (running : .running p ∈ q.workers) (k : Nat) : attends k p ≤ attended k q :=
  Queue.le_total _ _ running

theorem dirOwes_le {j : Nat} {d : Dir} (found : q.shared.dirs[j]? = some d) : dirOwes P d ≤ owed P q := by
  obtain ⟨before,after,split⟩ := List.append_of_mem (List.mem_of_getElem? found)
  rw [owed,split]
  simp only [List.map_append,List.map_cons,List.sum_append_nat,List.sum_cons]
  omega

theorem sum_le_sum {α : Type} (l : List α) {f g : α → Nat} (le : ∀ a, f a ≤ g a) : (l.map f).sum ≤ (l.map g).sum := by
  induction l with
  | nil => exact Nat.le_refl _
  | cons a l ih => exact Nat.add_le_add (le a) ih

theorem owed_mono (implies : ∀ c, P c = true → Q c = true) : owed P q ≤ owed Q q := by
  have owes_le (c : Completion) : owes P c ≤ owes Q c := by
    cases c with
    | none => exact Nat.le_refl _
    | some c =>
      rw [owes,owes,Option.any_some,Option.any_some]
      cases holds : P c with
      | false => exact Nat.zero_le _
      | true => simp [implies c holds]
  refine Nat.add_le_add (Nat.add_le_add (sum_le_sum _ fun i => owes_le _) (sum_le_sum _ fun w => ?_)) (sum_le_sum _ fun d => ?_)
  · cases w with
    | running p =>
      cases p with
      | enqueue k entries => exact List.countP_mono_left fun e _ => implies _
      | copyDirectoryContent => exact Nat.le_refl _
      | finish => exact Nat.le_refl _
      | _ => exact owes_le _
    | _ => exact Nat.le_refl _
  · rw [dirOwes,dirOwes]
    split
    next => exact owes_le _
    next => exact Nat.le_refl _

end Bounds

section Invariant

/-- What a restore counts is what is owed. -/
structure Core (q : Queue Item Place Copier) : Prop where
  left : ∀ k (d : Dir), q.shared.dirs[k]? = some d → d.left.getD 0 = (owed (·.1 == k) q : Int)
  control : ∀ k (d : Dir), q.shared.dirs[k]? = some d → attended k q + d.finished = if d.left.getD 0 = 0 then 1 else 0
  valid : ∀ k, q.shared.dirs.length ≤ k → owed (·.1 == k) q = 0 ∧ attended k q = 0 ∧ .finished k ∉ q.shared.log
  above : ∀ j (d : Dir) k n, q.shared.dirs[j]? = some d → d.onCompletion = some (k,n) → k < j
  logged : ∀ k (d : Dir), q.shared.dirs[k]? = some d → q.shared.log.count (.finished k) = d.finished
  pending : ∀ k (d : Dir) n, q.shared.dirs[k]? = some d → d.left ≠ none → n < d.d.entries.length →
    0 < owed (· == (k,n)) q ∨ Handled q.shared.dirs q.shared.log (k,n)
  handled : ∀ c, .running (.complete (some c)) ∈ q.workers → Handled q.shared.dirs q.shared.log c
  finishing : ∀ k (d : Dir), .running (.finish k) ∈ q.workers → q.shared.dirs[k]? = some d → d.left = none → d.d.entries.length = 0
  ordered : ∀ k (d : Dir), q.shared.dirs[k]? = some d → d.finished ≠ 0 → FinishedInOrder q.shared k d

/-- Directories stay what they are. -/
def Keeping (dirs dirs' : List Dir) : Prop :=
  ∀ (j : Nat) (d : Dir), dirs[j]? = some d → ∃ d' : Dir, dirs'[j]? = some d' ∧ d'.onCompletion = d.onCompletion

theorem Handled.mono {dirs dirs' : List Dir} {log tail : List Event} {c : Nat × Nat} (keeping : Keeping dirs dirs')
    (handled : Handled dirs log c) : Handled dirs' (log ++ tail) c := by
  rcases handled with ⟨how,done⟩ | ⟨j,d,found,completes,finished⟩
  · exact .inl ⟨how,List.mem_append_left _ done⟩
  · obtain ⟨d',found',same⟩ := keeping j d found
    exact .inr ⟨j,d',found',same.trans completes,List.mem_append_left _ finished⟩

theorem Handled.mono_left {dirs dirs' : List Dir} {log : List Event} {c : Nat × Nat} (keeping : Keeping dirs dirs')
    (handled : Handled dirs log c) : Handled dirs' log c := by
  rw [← List.append_nil log]
  exact handled.mono keeping

variable {q q' : Queue Item Place Copier}

/-- Nothing but handled entries is new. -/
theorem core_same (core : Core q) {tail : List Event} (dirs : q'.shared.dirs = q.shared.dirs)
    (log : q'.shared.log = q.shared.log ++ tail) (silent : ∀ k, .finished k ∉ tail) (owes : ∀ P, owed P q' = owed P q)
    (attends : ∀ k, attended k q' = attended k q)
    (handled : ∀ c, .running (.complete (some c)) ∈ q'.workers → .running (.complete (some c)) ∈ q.workers ∨
      Handled q'.shared.dirs q'.shared.log c)
    (finishing : ∀ k (d : Dir), .running (.finish k) ∈ q'.workers → q.shared.dirs[k]? = some d → d.left = none →
      .running (.finish k) ∈ q.workers ∨ d.d.entries.length = 0) : Core q' := by
  have keeping : Keeping q.shared.dirs q'.shared.dirs := fun j d found => ⟨d,dirs ▸ found,rfl⟩
  constructor
  · intro k d found
    rw [owes]
    exact core.left k d (dirs ▸ found)
  · intro k d found
    rw [attends]
    exact core.control k d (dirs ▸ found)
  · intro k beyond
    obtain ⟨none,free,unfinished⟩ := core.valid k (dirs ▸ beyond)
    rw [owes,attends,log]
    exact ⟨none,free,by simp [unfinished,silent]⟩
  · exact fun j d k n found => core.above j d k n (dirs ▸ found)
  · intro k d found
    rw [log,List.count_append,List.count_eq_zero.mpr (silent k),Nat.add_zero]
    exact core.logged k d (dirs ▸ found)
  · intro k d n found counted bound
    rw [owes,log]
    exact (core.pending k d n (dirs ▸ found) counted bound).imp id (·.mono keeping)
  · intro c running
    rcases handled c running with before | now
    · rw [log]
      exact (core.handled c before).mono keeping
    · exact now
  · intro k d running found none
    rcases finishing k d running (dirs ▸ found) none with before | empty
    · exact core.finishing k d before (dirs ▸ found) none
    · exact empty
  · intro k d found finished
    obtain ⟨before,after,split,first,last,all,inner⟩ := core.ordered k d (dirs ▸ found) finished
    refine ⟨before,after ++ tail,?_,first,?_,?_,?_⟩
    · rw [log,split]
      simp
    · simp [last,silent]
    · rw [dirs]
      exact all
    · rw [dirs]
      exact inner

/-- A directory that has entries left is not finished yet, and nobody attends to it. -/
theorem Core.open_ (core : Core q) {k : Nat} {d : Dir} (found : q.shared.dirs[k]? = some d) (some : 0 < owed (·.1 == k) q) :
    d.finished = 0 ∧ attended k q = 0 ∧ d.left.getD 0 ≠ 0 := by
  have left := core.left k d found
  have control := core.control k d found
  rw [if_neg (by omega)] at control
  omega

/-- A directory that is attended to has no entries left, and is not finished yet. -/
theorem Core.attended_ (core : Core q) {k : Nat} {d : Dir} (found : q.shared.dirs[k]? = some d) (some : 0 < attended k q) :
    d.finished = 0 ∧ attended k q = 1 ∧ d.left.getD 0 = 0 := by
  have control := core.control k d found
  split at control
  next none => exact ⟨by omega,by omega,none⟩
  next => omega

theorem getElem?_concat {dirs : List Dir} {j : Nat} {d new : Dir} (found : (dirs ++ [new])[j]? = some d) :
    dirs[j]? = some d ∨ j = dirs.length ∧ d = new := by
  rcases Nat.lt_trichotomy j dirs.length with inside | rfl | outside
  · exact .inl (by rwa [List.getElem?_append_left inside] at found)
  · refine .inr ⟨rfl,?_⟩
    simpa using found.symm
  · rw [List.getElem?_eq_none (by simp; omega)] at found
    contradiction

/-- A directory is begun. -/
theorem core_begins (core : Core q) {i : Item} (running : .running (.copyEntryInternal i) ∈ q.workers)
    (shared : q'.shared = q.shared.BeginDirectory i) (owes : ∀ P, owed P q' = owed P q)
    (attends : ∀ k, attended k q' = attended k q + (q.shared.dirs.length == k).toNat)
    (still : ∀ p, .running p ∈ q'.workers → .running p ∈ q.workers ∨
      p = .copyDirectoryContent q.shared.dirs.length (i.currentdepth + 1)) : Core q' := by
  obtain ⟨unowed,unattended,unlogged⟩ := core.valid _ (Nat.le_refl _)
  have dirs : q'.shared.dirs = q.shared.dirs ++ [⟨i.e,i.targetPath,i.onCompletion,none,0⟩] := by rw [shared]; rfl
  have log : q'.shared.log = q.shared.log ++ [.began q.shared.dirs.length] := by rw [shared]; rfl
  have below {j : Nat} {d : Dir} (found : q.shared.dirs[j]? = some d) : j < q.shared.dirs.length :=
    (List.getElem?_eq_some_iff.mp found).1
  have keeping : Keeping q.shared.dirs q'.shared.dirs := by
    intro j d found
    refine ⟨d,?_,rfl⟩
    rw [dirs,List.getElem?_append_left (below found),found]
  have owing {k n : Nat} (completes : i.onCompletion = some (k,n)) : 0 < owed (·.1 == k) q := by
    have one := placeOwes_le (P := (·.1 == k)) running
    simp only [placeOwes,itemOwes,Restoring.owes,completes,Option.any_some,beq_self_eq_true,Bool.toNat_true] at one
    exact one
  constructor
  · intro k d found
    rw [owes]
    rcases getElem?_concat (dirs ▸ found) with old | ⟨rfl,rfl⟩
    · exact core.left k d old
    · rw [unowed]
      rfl
  · intro k d found
    rw [attends]
    rcases getElem?_concat (dirs ▸ found) with old | ⟨rfl,rfl⟩
    · have other : (q.shared.dirs.length == k) = false := by
        have := below old
        simp
        omega
      rw [other]
      exact core.control k d old
    · rw [unattended]
      simp
  · intro k beyond
    rw [dirs,List.length_append,List.length_singleton] at beyond
    obtain ⟨none,free,unfinished⟩ := core.valid k (by omega)
    have other : (q.shared.dirs.length == k) = false := by
      simp
      omega
    rw [owes,attends,log,other]
    exact ⟨none,free,by simp [unfinished]⟩
  · intro j d k n found completes
    rcases getElem?_concat (dirs ▸ found) with old | ⟨rfl,rfl⟩
    · exact core.above j d k n old completes
    · by_contra beyond
      have none := (core.valid k (by omega)).1
      have some := owing completes
      omega
  · intro k d found
    rw [log,List.count_append]
    rcases getElem?_concat (dirs ▸ found) with old | ⟨rfl,rfl⟩
    · rw [core.logged k d old]
      simp
    · rw [List.count_eq_zero.mpr unlogged]
      simp
  · intro k d n found counted bound
    rw [owes,log]
    rcases getElem?_concat (dirs ▸ found) with old | ⟨rfl,rfl⟩
    · exact (core.pending k d n old counted bound).imp id (·.mono keeping)
    · exact absurd rfl counted
  · intro c running
    rcases still _ running with before | now
    · rw [log]
      exact (core.handled c before).mono keeping
    · contradiction
  · intro k d running found none
    rcases still _ running with before | now
    · rcases getElem?_concat (dirs ▸ found) with old | ⟨rfl,rfl⟩
      · exact core.finishing k d before old none
      · have some := attends_le before q.shared.dirs.length
        simp [Restoring.attends,unattended] at some
    · contradiction
  · intro k d found finished
    rcases getElem?_concat (dirs ▸ found) with old | ⟨rfl,rfl⟩
    · obtain ⟨before,after,split,first,last,all,inner⟩ := core.ordered k d old finished
      refine ⟨before,after ++ [.began q.shared.dirs.length],?_,first,?_,fun n bound => (all n bound).mono_left keeping,?_⟩
      · rw [log,split]
        simp
      · simp [last]
      · intro j d' n found' completes
        rcases getElem?_concat (dirs ▸ found') with old' | ⟨rfl,rfl⟩
        · exact inner j d' n old' completes
        · exact absurd (core.open_ old (owing completes)).1 finished
    · exact absurd rfl finished

theorem keeping_set {dirs : List Dir} {k : Nat} {d new : Dir} (found : dirs[k]? = some d)
    (same : new.onCompletion = d.onCompletion) : Keeping dirs (dirs.set k new) := by
  intro j d' found'
  by_cases equal : k = j
  · cases equal
    rw [found] at found'
    cases found'
    exact ⟨new,List.getElem?_set_self (List.getElem?_eq_some_iff.mp found).1,same⟩
  · exact ⟨d',by rwa [List.getElem?_set_ne equal],rfl⟩

theorem getElem?_set_cases {dirs : List Dir} {j k : Nat} {d new : Dir} (found : (dirs.set k new)[j]? = some d) :
    j = k ∧ d = new ∨ j ≠ k ∧ dirs[j]? = some d := by
  by_cases equal : k = j
  · cases equal
    obtain ⟨bound,is⟩ := List.getElem?_eq_some_iff.mp found
    exact .inl ⟨rfl,by rw [← is,List.getElem_set_self]⟩
  · rw [List.getElem?_set_ne equal] at found
    exact .inr ⟨Ne.symm equal,found⟩

/-- The entries that a directory has left are counted anew. -/
theorem core_left (core : Core q) {k : Nat} {d : Dir} {left : Int} (found : q.shared.dirs[k]? = some d) (unfinished : d.finished = 0)
    (shared : q'.shared = q.shared.setLeft k d left)
    (owes : ∀ P, (∀ n, P (k,n) = false) → owed P q' = owed P q) (owes_k : (owed (·.1 == k) q' : Int) = left)
    (attends : ∀ j ≠ k, attended j q' = attended j q) (attends_k : attended k q' = if left = 0 then 1 else 0)
    (pending : ∀ n < d.d.entries.length, 0 < owed (· == (k,n)) q' ∨ Handled q.shared.dirs q.shared.log (k,n))
    (handled : ∀ c, .running (.complete (some c)) ∈ q'.workers → .running (.complete (some c)) ∈ q.workers)
    (finishing : ∀ j, .running (.finish j) ∈ q'.workers → .running (.finish j) ∈ q.workers ∨ j = k) : Core q' := by
  have dirs : q'.shared.dirs = q.shared.dirs.set k { d with left := some left } := by rw [shared]; rfl
  have log : q'.shared.log = q.shared.log := by rw [shared]; rfl
  have inside := (List.getElem?_eq_some_iff.mp found).1
  have keeping : Keeping q.shared.dirs q'.shared.dirs := dirs ▸ keeping_set found rfl
  have owes_other {j : Nat} (other : j ≠ k) : owed (·.1 == j) q' = owed (·.1 == j) q :=
    owes _ fun n => by simpa using Ne.symm other
  constructor
  · intro j d' found'
    rcases getElem?_set_cases (dirs ▸ found') with ⟨rfl,rfl⟩ | ⟨other,old⟩
    · exact owes_k.symm
    · rw [owes_other other]
      exact core.left j d' old
  · intro j d' found'
    rcases getElem?_set_cases (dirs ▸ found') with ⟨rfl,rfl⟩ | ⟨other,old⟩
    · rw [attends_k]
      simp [unfinished]
    · rw [attends j other]
      exact core.control j d' old
  · intro j beyond
    rw [dirs,List.length_set] at beyond
    have other : j ≠ k := by omega
    rw [owes_other other,attends j other,log]
    exact core.valid j beyond
  · intro j d' m n found' completes
    rcases getElem?_set_cases (dirs ▸ found') with ⟨rfl,rfl⟩ | ⟨other,old⟩
    · exact core.above j d m n found completes
    · exact core.above j d' m n old completes
  · intro j d' found'
    rw [log]
    rcases getElem?_set_cases (dirs ▸ found') with ⟨rfl,rfl⟩ | ⟨other,old⟩
    · exact core.logged j d found
    · exact core.logged j d' old
  · intro j d' n found' counted bound
    rw [log]
    rcases getElem?_set_cases (dirs ▸ found') with ⟨rfl,rfl⟩ | ⟨other,old⟩
    · exact (pending n bound).imp id (·.mono_left keeping)
    · rw [owes _ fun m => by simpa using fun equal => absurd equal.symm other]
      exact (core.pending j d' n old counted bound).imp id (·.mono_left keeping)
  · intro c running
    rw [log]
    exact (core.handled c (handled c running)).mono_left keeping
  · intro j d' running found' none
    rcases getElem?_set_cases (dirs ▸ found') with ⟨rfl,rfl⟩ | ⟨other,old⟩
    · contradiction
    · exact core.finishing j d' ((finishing j running).resolve_right other) old none
  · intro j d' found' finished
    rcases getElem?_set_cases (dirs ▸ found') with ⟨rfl,rfl⟩ | ⟨other,old⟩
    · exact absurd unfinished finished
    · obtain ⟨before,after,split,first,last,all,inner⟩ := core.ordered j d' old finished
      refine ⟨before,after,log.trans split,first,last,fun n bound => (all n bound).mono_left keeping,?_⟩
      intro m d'' n found'' completes
      rcases getElem?_set_cases (dirs ▸ found'') with ⟨rfl,rfl⟩ | ⟨_,old'⟩
      · exact inner m d n found completes
      · exact inner m d'' n old' completes

/-- A directory is finished. -/
theorem core_finishes (core : Core q) {k : Nat} {d : Dir} (tail : List Event) (found : q.shared.dirs[k]? = some d)
    (running : .running (.finish k) ∈ q.workers)
    (dirs : q'.shared.dirs = q.shared.dirs.set k { d with finished := d.finished + 1 })
    (log : q'.shared.log = q.shared.log ++ .finished k :: tail) (silent : ∀ j, .finished j ∉ tail)
    (owes : ∀ P, owed P q' = owed P q) (attends : ∀ j, attended j q' + (k == j).toNat = attended j q)
    (still : ∀ p, .running p ∈ q'.workers → .running p ∈ q.workers ∨ p = .complete d.onCompletion) : Core q' := by
  have some := attends_le running k
  simp only [Restoring.attends,beq_self_eq_true,Bool.toNat_true] at some
  obtain ⟨unfinished,once,none⟩ := core.attended_ found some
  have inside := (List.getElem?_eq_some_iff.mp found).1
  have keeping : Keeping q.shared.dirs q'.shared.dirs := dirs ▸ keeping_set found rfl
  have fresh : .finished k ∉ q.shared.log := by
    rw [← List.count_eq_zero,core.logged k d found]
    exact unfinished
  have unowed : owed (·.1 == k) q = 0 := by
    have left := core.left k d found
    omega
  have all (n : Nat) (bound : n < d.d.entries.length) : Handled q.shared.dirs q.shared.log (k,n) := by
    cases counted : d.left with
    | none =>
      have empty := core.finishing k d running found counted
      omega
    | some left =>
      refine (core.pending k d n found (by simp [counted]) bound).resolve_left fun some => ?_
      have most : owed (· == (k,n)) q ≤ owed (·.1 == k) q := owed_mono fun c is => by
        have equal : c = (k,n) := by simpa using is
        simp [equal]
      omega
  have attends_other {j : Nat} (other : j ≠ k) : attended j q' = attended j q := by
    have moved := attends j
    have apart : (k == j) = false := by simpa using Ne.symm other
    rwa [apart,Bool.toNat_false,Nat.add_zero] at moved
  constructor
  · intro j d' found'
    rw [owes]
    rcases getElem?_set_cases (dirs ▸ found') with ⟨rfl,rfl⟩ | ⟨other,old⟩
    · exact core.left j d found
    · exact core.left j d' old
  · intro j d' found'
    rcases getElem?_set_cases (dirs ▸ found') with ⟨rfl,rfl⟩ | ⟨other,old⟩
    · have moved := attends j
      rw [once] at moved
      simp only [beq_self_eq_true,Bool.toNat_true] at moved
      simp only [none,unfinished,if_true]
      omega
    · rw [attends_other other]
      exact core.control j d' old
  · intro j beyond
    rw [dirs,List.length_set] at beyond
    have other : j ≠ k := by omega
    obtain ⟨none,free,unlogged⟩ := core.valid j beyond
    rw [owes,attends_other other,log]
    exact ⟨none,free,by simp [unlogged,silent,other]⟩
  · intro j d' m n found' completes
    rcases getElem?_set_cases (dirs ▸ found') with ⟨rfl,rfl⟩ | ⟨other,old⟩
    · exact core.above j d m n found completes
    · exact core.above j d' m n old completes
  · intro j d' found'
    rw [log,List.count_append,List.count_cons,List.count_eq_zero.mpr (silent j)]
    rcases getElem?_set_cases (dirs ▸ found') with ⟨rfl,rfl⟩ | ⟨other,old⟩
    · rw [core.logged j d found]
      simp
    · rw [core.logged j d' old]
      simp [Ne.symm other]
  · intro j d' n found' counted bound
    rw [owes,log]
    rcases getElem?_set_cases (dirs ▸ found') with ⟨rfl,rfl⟩ | ⟨other,old⟩
    · exact (core.pending j d n found counted bound).imp id (·.mono keeping)
    · exact (core.pending j d' n old counted bound).imp id (·.mono keeping)
  · intro c running
    rw [log]
    rcases still _ running with before | now
    · exact (core.handled c before).mono keeping
    · refine .inr ⟨k,{ d with finished := d.finished + 1 },?_,(Place.complete.inj now).symm,?_⟩
      · rw [dirs]
        exact List.getElem?_set_self inside
      · simp
  · intro j d' running found' none
    rcases still _ running with before | now
    · rcases getElem?_set_cases (dirs ▸ found') with ⟨rfl,rfl⟩ | ⟨other,old⟩
      · exact core.finishing j d before found none
      · exact core.finishing j d' before old none
    · contradiction
  · intro j d' found' finished
    rcases getElem?_set_cases (dirs ▸ found') with ⟨rfl,rfl⟩ | ⟨other,old⟩
    · refine ⟨q.shared.log,tail,log,fresh,silent j,fun n bound => (all n bound).mono_left keeping,?_⟩
      intro m d'' n found'' completes
      rcases getElem?_set_cases (dirs ▸ found'') with ⟨rfl,rfl⟩ | ⟨_,old'⟩
      · exact absurd (core.above m d m n found completes) (Nat.lt_irrefl m)
      · by_contra missing
        have open_ : d''.finished = 0 := by
          rw [← core.logged m d'' old',List.count_eq_zero]
          exact missing
        have one := dirOwes_le (P := (·.1 == j)) old'
        rw [dirOwes,if_pos open_,Restoring.owes,completes] at one
        simp [unowed] at one
    · obtain ⟨before,after,split,first,last,all',inner⟩ := core.ordered j d' old finished
      refine ⟨before,after ++ .finished k :: tail,?_,first,?_,fun n bound => (all' n bound).mono_left keeping,?_⟩
      · rw [log,split]
        simp
      · simp [last,silent,other]
      · intro m d'' n found'' completes
        rcases getElem?_set_cases (dirs ▸ found'') with ⟨rfl,rfl⟩ | ⟨_,old'⟩
        · exact inner m d n found completes
        · exact inner m d'' n old' completes

end Invariant

section Runs
variable {q q' : Queue Item Place Copier}

theorem countP_zipIdx (entries : List Entry) (k : Nat) : entries.zipIdx.countP (fun e => (k,e.2).1 == k) = entries.length := by
  rw [List.countP_eq_length.mpr (by simp),List.length_zipIdx]

theorem core_acted (core : Core q) {p : Place} {r : Outcome} (running : .running p ∈ q.workers) (acts : Acts q.shared p r)
    (shared : q'.shared = r.shared)
    (weighs : ∀ f g, q'.total f g + g p = q.total f g + r.goesOn g + ((r.front ++ r.back).map f).sum)
    (still : ∀ p, .running p ∈ q'.workers → .running p ∈ q.workers ∨ r.next = .inl p) : Core q' := by
  have attend (k : Nat) : attended k q' + attends k p = attended k q + r.goesOn (attends k) := by
    have moved := weighs (fun _ => 0) (attends k)
    simpa [attended] using moved
  have found_finish (k : Nat) (d : Dir) (is : p = .finish k) (found : q.shared.dirs[k]? = some d) : d.finished = 0 := by
    have some := attends_le running k
    rw [is] at some
    simp only [attends,beq_self_eq_true,Bool.toNat_true] at some
    exact (core.attended_ found some).1
  have owe (P : Nat × Nat → Bool) : owed P q' + paid P p = owed P q + gained P q.shared p := by
    have moved := weighs (itemOwes P) (placeOwes P)
    have balance := acts.owed P found_finish
    rw [owed,owed,shared]
    omega
  have same (dirs : r.shared.dirs = q.shared.dirs) (tail : List Event) (log : r.shared.log = q.shared.log ++ tail)
      (silent : ∀ k, .finished k ∉ tail) (free : ∀ P, paid P p = 0 ∧ gained P q.shared p = 0)
      (level : ∀ k, attends k p = r.goesOn (attends k))
      (handled : ∀ c, r.next = .inl (.complete (some c)) → Handled r.shared.dirs r.shared.log c)
      (finishing : ∀ k d, r.next = .inl (.finish k) → q.shared.dirs[k]? = some d → d.left = none → d.d.entries.length = 0) :
      Core q' := by
    refine core_same core (by rw [shared,dirs]) (by rw [shared,log] : _ = _ ++ tail) silent (fun P => ?_) (fun k => ?_) ?_ ?_
    · have moved := owe P
      obtain ⟨none,none'⟩ := free P
      omega
    · have moved := attend k
      have equal := level k
      omega
    · intro c running
      rw [shared]
      exact (still _ running).imp id (handled c)
    · intro k d running found none
      exact (still _ running).imp id fun now => finishing k d now found none
  have handles (i : Item) (how : Handling) (c : Nat × Nat) (is : i.onCompletion = some c) :
      Handled (q.shared.handled i.onCompletion how).dirs (q.shared.handled i.onCompletion how).log c := by
    refine .inl ⟨how,?_⟩
    rw [is]
    exact List.mem_append_right _ (List.mem_singleton_self _)
  have completes (k n : Nat) (d : Dir) (left : Int) (found : q.shared.dirs[k]? = some d) (counted : d.left = some left)
      (running : .running (.complete (some (k,n))) ∈ q.workers) (pays : ∀ P, owed P q' + owes P (some (k,n)) = owed P q)
      (shared : q'.shared = q.shared.setLeft k d (left - 1)) (others : ∀ j ≠ k, attended j q' = attended j q)
      (attends_k : attended k q' = attended k q + if left - 1 = 0 then 1 else 0)
      (handled : ∀ c, .running (.complete (some c)) ∈ q'.workers → .running (.complete (some c)) ∈ q.workers)
      (finishing : ∀ j, .running (.finish j) ∈ q'.workers → .running (.finish j) ∈ q.workers ∨ j = k) : Core q' := by
    have one := placeOwes_le (P := (·.1 == k)) running
    simp only [placeOwes,owes,Option.any_some,beq_self_eq_true,Bool.toNat_true] at one
    obtain ⟨unfinished,free,_⟩ := core.open_ found one
    refine core_left core found unfinished shared (fun P other => ?_) ?_ others (by rw [attends_k,free,Nat.zero_add])
      (fun n' bound => ?_) handled finishing
    · have moved := pays P
      rw [owes,Option.any_some,other n] at moved
      exact moved
    · have moved := pays (·.1 == k)
      have whole := core.left k d found
      rw [counted,Option.getD_some] at whole
      simp only [owes,Option.any_some,beq_self_eq_true,Bool.toNat_true] at moved
      omega
    · by_cases equal : n' = n
      · rw [equal]
        exact .inr (core.handled _ running)
      · have moved := pays (· == (k,n'))
        have apart : ((k,n) == (k,n')) = false := by simpa using Ne.symm equal
        rw [owes,Option.any_some,apart] at moved
        rw [(by simpa using moved : owed (· == (k,n')) q' = owed (· == (k,n')) q)]
        exact core.pending k d n' found (by simp [counted]) bound
  have unpaid (P : Nat × Nat → Bool) : (0 : Nat) = 0 ∧ (0 : Nat) = 0 := ⟨rfl,rfl⟩
  have quiet (i : Item) (how : Handling) (k : Nat) : .finished k ∉ [Event.handled i.onCompletion how] := by simp
  cases acts with
  | cancelled i how =>
    refine same rfl _ rfl (quiet i how) unpaid (fun _ => rfl) (fun c is => handles i how c ?_) fun k d is => by cases is
    exact Place.complete.inj (Sum.inl.inj is)
  | skipped i how =>
    refine same rfl _ rfl (quiet i how) unpaid (fun _ => rfl) (fun c is => handles i how c ?_) fun k d is => by cases is
    exact Place.complete.inj (Sum.inl.inj is)
  | written i how =>
    refine same rfl _ rfl (quiet i how) unpaid (fun _ => rfl) (fun c is => handles i how c ?_) fun k d is => by cases is
    exact Place.complete.inj (Sum.inl.inj is)
  | looks i =>
    exact same rfl [] (List.append_nil _).symm (by simp) unpaid (fun _ => rfl) (fun c is => by cases is) fun k d is => by cases is
  | copies i =>
    exact same rfl [] (List.append_nil _).symm (by simp) unpaid (fun _ => rfl) (fun c is => by cases is) fun k d is => by cases is
  | enqueues k e n entries depth i front back c one =>
    exact same rfl [] (List.append_nil _).symm (by simp) unpaid (fun _ => rfl) (fun c is => by cases is) fun k d is => by cases is
  | enqueued k depth =>
    exact same rfl [] (List.append_nil _).symm (by simp) unpaid (fun _ => rfl) (fun c is => by cases is) fun k d is => by cases is
  | root =>
    exact same rfl [] (List.append_nil _).symm (by simp) unpaid (fun _ => rfl) (fun c is => by cases is) fun k d is => by cases is
  | ignored i root =>
    exact same rfl _ rfl (quiet i .ignored) unpaid (fun _ => rfl) (fun c is => by cases is) fun k d is => by cases is
  | empty k depth d found none =>
    have entries : d.d.entries = [] := List.eq_nil_of_length_eq_zero none
    refine same rfl [] (List.append_nil _).symm (by simp) (fun P => ⟨rfl,?_⟩) (fun _ => rfl) (fun c is => by cases is) ?_
    · simp [gained,found,entries]
    · intro j d' is found' _
      cases Place.finish.inj (Sum.inl.inj is)
      rw [found] at found'
      cases found'
      exact none
  | begins i =>
    refine core_begins core running shared (fun P => owe P) (fun k => attend k) fun p running => (still p running).imp id fun is => ?_
    exact (Sum.inl.inj is).symm
  | counts k depth d found some =>
    have busy := attends_le running k
    simp only [attends,beq_self_eq_true,Bool.toNat_true] at busy
    obtain ⟨unfinished,once,none⟩ := core.attended_ found busy
    have unowed := core.left k d found
    have gains (P : Nat × Nat → Bool) : owed P q' = owed P q + d.d.entries.zipIdx.countP fun e => P (k,e.2) := by
      have moved := owe P
      rw [gained,found,Option.elim_some] at moved
      exact moved
    refine core_left core found unfinished shared (fun P other => ?_) ?_ (fun j other => ?_) ?_ (fun n bound => .inl ?_) ?_ ?_
    · rw [gains,List.countP_eq_zero.mpr (by simp [other]),Nat.add_zero]
    · rw [gains,countP_zipIdx]
      omega
    · have moved := attend j
      have apart : (k == j) = false := by simpa using Ne.symm other
      simp only [attends,apart,Bool.toNat_false,Result.goesOn] at moved
      omega
    · have moved := attend k
      simp only [attends,beq_self_eq_true,Bool.toNat_true,Result.goesOn] at moved
      rw [if_neg (by omega)]
      omega
    · rw [gains]
      refine Nat.add_pos_right _ (List.countP_pos_iff.mpr ⟨(d.d.entries[n],n),?_,by simp⟩)
      rw [List.mem_zipIdx_iff_getElem?]
      exact List.getElem?_eq_getElem bound
    · exact fun c running => (still _ running).resolve_right fun is => by cases is
    · exact fun j running => (still _ running).imp id fun is => by cases is
  | last k n d left found counted last =>
    refine completes k n d left found counted running (fun P => owe P) shared (fun j other => ?_) ?_ ?_ ?_
    · have moved := attend j
      have apart : (k == j) = false := by simpa using Ne.symm other
      simp only [attends,Result.goesOn,apart,Bool.toNat_false] at moved
      omega
    · have moved := attend k
      simp only [attends,Result.goesOn,beq_self_eq_true,Bool.toNat_true] at moved
      rw [if_pos last]
      omega
    · exact fun c running => (still _ running).resolve_right fun is => by cases is
    · intro j running
      refine (still _ running).imp id fun is => ?_
      cases is
      rfl
  | one k n d left found counted more =>
    refine completes k n d left found counted running (fun P => owe P) shared (fun j _ => attend j) ?_ ?_ ?_
    · rw [if_neg more]
      exact attend k
    · exact fun c running => (still _ running).resolve_right fun is => by cases is
    · exact fun j running => (still _ running).imp id fun is => by cases is
  | finishes k d found =>
    refine core_finishes core [] found running ?_ ?_ (by simp) (fun P => owe P) (fun j => attend j) ?_
    · rw [shared]; rfl
    · rw [shared]; rfl
    · exact fun p running => (still p running).imp id fun is => (Sum.inl.inj is).symm
  | unfinished k d found root =>
    refine core_finishes core [.handled d.onCompletion .ignored] found running ?_ ?_ (by simp) (fun P => owe P)
      (fun j => attend j) ?_
    · rw [shared]; rfl
    · rw [shared]
      simp [Copier.FinishDirectory,Copier.handled]
    · exact fun p running => (still p running).imp id fun is => by cases is

theorem core_step (core : Core q) {l : Nat × Bool × Bool} (keeps : Keeps paths options q l) (taken : step paths options q l = some q') :
    q'.Failed ∨ Core q' := by
  cases Queue.stepped taken with
  | turned shared weighs items running =>
    have level (k : Nat) : attended k q' = attended k q := weighs _ _ fun _ => rfl
    refine .inr (core_same core (by rw [shared]) (by rw [shared,List.append_nil] : _ = _ ++ []) (by simp) (fun P => ?_) level ?_ ?_)
    · rw [owed,owed,shared,weighs (itemOwes P) (placeOwes P) fun _ => rfl]
    · intro c complete
      rcases running _ complete with before | ⟨i,_,is⟩
      · exact .inl before
      · contradiction
    · intro k d finish _ _
      rcases running _ finish with before | ⟨i,_,is⟩
      · exact .inl before
      · contradiction
  | acted p r found acted shared weighs items still returned =>
    rcases acts acted (keeps p found) with error | acts
    · exact .inl (.inl (returned false error))
    · exact .inr (core_acted core (List.mem_of_getElem? found) acts shared weighs still)

theorem core_restore (root : Entry) (workers : Nat) : Core (root.restore workers) := by
  have free (f : Item → Nat) (g : Place → Nat) (none : f ⟨root,"",0,.none⟩ = 0) : (root.restore workers).total f g = 0 := by
    rw [Entry.restore,Queue.Process,Queue.EnqueueFront,Queue.total]
    simp [none]
  have nothing (k : Nat) (d : Dir) : (root.restore workers).shared.dirs[k]? ≠ some d := by
    rw [Entry.restore,Queue.Process]
    simp
  have idle (p : Place) : .running p ∉ (root.restore workers).workers := fun member => by
    have is := List.eq_of_mem_replicate member
    contradiction
  constructor
  · exact fun k d found => absurd found (nothing k d)
  · exact fun k d found => absurd found (nothing k d)
  · intro k _
    refine ⟨?_,free _ _ rfl,List.not_mem_nil⟩
    rw [owed,free _ _ rfl]
    rfl
  · exact fun j d _ _ found => absurd found (nothing j d)
  · exact fun k d found => absurd found (nothing k d)
  · exact fun k d _ found => absurd found (nothing k d)
  · exact fun c running => absurd running (idle _)
  · exact fun k d running => absurd running (idle _)
  · exact fun k d found => absurd found (nothing k d)

theorem exists_of_sum_pos {α : Type} {l : List α} {f : α → Nat} (some : 0 < (l.map f).sum) : ∃ a ∈ l, 0 < f a := by
  induction l with
  | nil => contradiction
  | cons a l ih =>
    by_cases zero : f a = 0
    · rw [List.map_cons,List.sum_cons,zero,Nat.zero_add] at some
      obtain ⟨b,member,positive⟩ := ih some
      exact ⟨b,List.mem_cons_of_mem a member,positive⟩
    · exact ⟨a,List.mem_cons_self,Nat.pos_of_ne_zero zero⟩

/-- Where all workers have ended without an error, every directory is finished: one that is not would wait for one in it. -/
theorem Core.all_finished (core : Core q) (drained : ∀ f g, q.total f g = 0) (k : Nat) (d : Dir) (found : q.shared.dirs[k]? = some d) :
    d.finished ≠ 0 := by
  induction gap : q.shared.dirs.length - k using Nat.strongRecOn generalizing k d with
  | ind gap ih =>
    intro unfinished
    have control := core.control k d found
    have whole := core.left k d found
    rw [attended,drained,unfinished] at control
    have some : d.left.getD 0 ≠ 0 := fun none => by
      rw [if_pos none] at control
      omega
    rw [owed,drained,Nat.zero_add] at whole
    obtain ⟨d',member,waits⟩ := exists_of_sum_pos (by omega : 0 < (q.shared.dirs.map (dirOwes (·.1 == k))).sum)
    obtain ⟨j,bound,is⟩ := List.getElem_of_mem member
    have found' : q.shared.dirs[j]? = .some d' := is ▸ List.getElem?_eq_getElem bound
    rw [dirOwes] at waits
    split at waits
    next unfinished' =>
      cases completes : d'.onCompletion with
      | none =>
        rw [completes] at waits
        contradiction
      | some c =>
        obtain ⟨k',n⟩ := c
        rw [completes,owes,Option.any_some] at waits
        have equal : k' = k := by
          by_contra other
          have apart : (k' == k) = false := by simpa using other
          simp [apart] at waits
        have later := core.above j d' k' n found' completes
        exact ih _ (by omega) j d' found' rfl unfinished'
    next => contradiction

theorem core_run (root : Entry) (workers : Nat) {labels : List (Nat × Bool × Bool)}
    (meets : Runs.Meets (step paths options) (Keeps paths options) (root.restore workers) labels)
    (reached : Runs.run (step paths options) (root.restore workers) labels = some q) :
    (q.Failed ∨ Core q) ∧ q.Counted ∧ q.workers.length = workers := by
  have kept (s l t) (sound : (s.Failed ∨ Core s) ∧ s.Counted ∧ s.workers.length = workers) (keeps : Keeps paths options s l)
      (taken : step paths options s l = some t) : (t.Failed ∨ Core t) ∧ t.Counted ∧ t.workers.length = workers := by
    obtain ⟨safe,counted,length⟩ := sound
    refine ⟨?_,Queue.counted_step counted taken,(Queue.length_step taken).trans length⟩
    rcases safe with failed | core
    · exact .inl (Queue.failed_step failed taken)
    · exact core_step core keeps taken
  exact Runs.invariant kept ⟨.inr (core_restore root workers),Queue.counted_process _ _ _,List.length_replicate⟩ meets reached

end Runs

section Claims

/-- In every run of a restore in which no error is ignored, or only one of the root that leaves no directory open: once all
workers have ended without an error, each directory that was begun is finished once, after its entries have been
handled and the directories in it been finished. -/
theorem finished_in_order (paths : Paths) (options : Options) (root : Entry) (workers : Nat) (labels : List (Nat × Bool × Bool))
    (meets : Runs.Meets (step paths options) (Keeps paths options) (root.restore workers) labels) (q : Queue Item Place Copier)
    (reached : Runs.run (step paths options) (root.restore workers) labels = some q) (returned : ∀ w ∈ q.workers, w = .stopped true)
    (k : Nat) (d : Dir) (found : q.shared.dirs[k]? = some d) : d.finished = 1 ∧ FinishedInOrder q.shared k d := by
  obtain ⟨safe,counted,length⟩ := core_run root workers meets reached
  have core : Core q := by
    refine safe.resolve_left fun failed => ?_
    rcases failed with completing | stopped
    · exact absurd (returned _ completing) (by simp)
    · exact absurd (returned _ stopped) (by simp)
  have some : q.workers ≠ [] := by
    -- without workers nothing is ever begun
    intro none
    rw [none,List.length_nil] at length
    subst length
    cases labels with
    | nil =>
      cases reached
      simp [Entry.restore,Queue.Process] at found
    | cons l labels =>
      have stuck : step paths options (root.restore 0) l = .none := by
        obtain ⟨k,cancelled,choice⟩ := l
        rfl
      simp [Runs.run,stuck] at reached
  have finished := core.all_finished (counted.drained some returned) k d found
  refine ⟨?_,core.ordered k d found finished⟩
  have control := core.control k d found
  split at control <;> omega

/-- A directory with one file, restored by one worker. -/
def single : Entry := .directory "d" true [.file "a"]

def plainPaths : Paths := ⟨(· ++ "/" ++ ·),id⟩

def strict : Options := ⟨1,false,false,100,false⟩

def lenient : Options := ⟨1,false,true,100,false⟩

/-- The worker copies the directory and the file, which may fail, and takes some more steps. -/
def singleRun (fails : Bool) (more : Nat) : List (Nat × Bool × Bool) :=
  List.replicate 11 (0,false,false) ++ [(0,false,fails)] ++ List.replicate more (0,false,false)

theorem strict_keeps (q : Queue Item Place Copier) (l : Nat × Bool × Bool) : Keeps plainPaths strict q l :=
  fun _ _ ignores => by contradiction

def singleDone : Queue Item Place Copier :=
  ⟨[],0,[.stopped true],⟨[⟨single,"",none,some 0,1⟩],[.began 0,.handled (some (0,0)) .written,.finished 0]⟩⟩

theorem finished_single : Runs.run (step plainPaths strict) (single.restore 1) (singleRun false 5) = some singleDone ∧
    FinishedInOrder singleDone.shared 0 ⟨single,"",none,some 0,1⟩ := by
  have ended : ∀ w ∈ singleDone.workers, w = .stopped true := by simp [singleDone]
  have run : Runs.run (step plainPaths strict) (single.restore 1) (singleRun false 5) = some singleDone := rfl
  exact ⟨run,(finished_in_order plainPaths strict single 1 (singleRun false 5)
    ((Runs.meets_true _ _).imp fun q l _ => strict_keeps q l) singleDone run ended 0 ⟨single,"",none,some 0,1⟩ rfl).2⟩

def singleLost : Queue Item Place Copier :=
  ⟨[],0,[.stopped true],⟨[⟨single,"",none,some 1,0⟩],[.began 0,.handled (some (0,0)) .ignored]⟩⟩

/-- The file cannot be written, which is ignored: all ends well, but the directory is never finished. -/
theorem never_finished : Runs.run (step plainPaths lenient) (single.restore 1) (singleRun true 2) = some singleLost ∧
    (∀ w ∈ singleLost.workers, w = .stopped true) ∧ .finished 0 ∉ singleLost.shared.log :=
  ⟨rfl,by simp [singleLost],by decide⟩

end Claims

end Vbe.Snapshots.Restoring
