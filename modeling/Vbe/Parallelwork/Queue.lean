import Mathlib.Algebra.BigOperators.Group.List.Basic
import Mathlib.Algebra.GroupWithZero.Nat
import Vbe.Library.Runs

/-! A work queue with a number of workers, which run callbacks that may add more work. A callback is a process of its own:
between any two of its actions other workers may act. -/
namespace Vbe.Parallelwork
open Vbe.Library

variable {ι π σ β : Type}

/-- A worker looks for work, runs a callback, is about to note that its callback has returned, or has ended. -/
inductive Worker (π : Type)
  | idle
  | running (p : π)
  | completing (ok : Bool)
  | stopped (ok : Bool)

/-- The queue with its items, how many workers are active, the workers, and what the callbacks share. -/
structure Queue (ι π σ : Type) where
  queueItems : List ι
  activeWorkerCount : Int
  workers : List (Worker π)
  shared : σ

/-- What an action of a callback leaves, how the callback goes on or whether it has returned an error, and what it puts in the
front and in the back of the queue. -/
structure Result (ι π σ : Type) where
  shared : σ
  next : π ⊕ Bool
  front : List ι
  back : List ι

/-- The weight of what a callback goes on with. -/
def Result.goesOn (g : π → Nat) (r : Result ι π σ) : Nat :=
  match r.next with
  | .inl p => g p
  | .inr _ => 0

namespace Queue

def EnqueueFront (items : List ι) (i : ι) : List ι := i :: items

def EnqueueBack (items : List ι) (i : ι) : List ι := items ++ [i]

def enqueued (items : List ι) (r : Result ι π σ) : List ι := r.back.foldl EnqueueBack (r.front.foldl EnqueueFront items)

/-- A queue that is processed by some workers. -/
def Process (items : List ι) (shared : σ) (workers : Nat) : Queue ι π σ := ⟨items,0,List.replicate workers .idle,shared⟩

variable (begin : ι → π) (act : σ → π → β → Option (Result ι π σ))

/-- A worker acts. One that looks for work may find the context cancelled, it waits where there is no work while others are
active, and it ends where nobody is. -/
def step (q : Queue ι π σ) (l : Nat × Bool × β) : Option (Queue ι π σ) :=
  let (k,cancelled,choice) := l
  match q.workers[k]? with
  | some .idle =>
    if cancelled then some { q with workers := q.workers.set k (.stopped false) }
    else
      match q.queueItems with
      | [] => if q.activeWorkerCount > 0 then none else some { q with workers := q.workers.set k (.stopped true) }
      | i :: items =>
        some { q with
          queueItems := items
          activeWorkerCount := q.activeWorkerCount + 1
          workers := q.workers.set k (.running (begin i)) }
  | some (.running p) =>
    (act q.shared p choice).map fun r =>
      { q with
        queueItems := enqueued q.queueItems r
        workers := q.workers.set k (match r.next with | .inl p => .running p | .inr ok => .completing ok)
        shared := r.shared }
  | some (.completing ok) =>
    some { q with
      activeWorkerCount := q.activeWorkerCount - 1
      workers := q.workers.set k (if ok then .idle else .stopped false) }
  | _ => none

/-- What the workers have to do, and what is in the queue, weighs. -/
def total (f : ι → Nat) (g : π → Nat) (q : Queue ι π σ) : Nat :=
  (q.queueItems.map f).sum + (q.workers.map fun w => match w with | .running p => g p | _ => 0).sum

section Steps
variable {begin act} {q q' : Queue ι π σ} {l : Nat × Bool × β}

theorem sum_map_set {α : Type} {l : List α} {k : Nat} {a : α} (w : α → Nat) (found : l[k]? = some a) (b : α) :
    ((l.set k b).map w).sum + w a = (l.map w).sum + w b := by
  induction l generalizing k with
  | nil => simp at found
  | cons c l ih =>
    cases k with
    | zero =>
      cases found
      simp only [List.set_cons_zero,List.map_cons,List.sum_cons]
      omega
    | succ k =>
      have rest := ih (k := k) (by simpa using found)
      simp only [List.set_cons_succ,List.map_cons,List.sum_cons]
      omega

theorem perm_enqueued (items : List ι) (r : Result ι π σ) : (enqueued items r).Perm (r.front ++ r.back ++ items) := by
  have front (items news : List ι) : (news.foldl EnqueueFront items).Perm (news ++ items) := by
    induction news generalizing items with
    | nil => exact .refl _
    | cons i news ih => exact (ih (i :: items)).trans List.perm_middle
  have back (items news : List ι) : news.foldl EnqueueBack items = items ++ news := by
    induction news generalizing items with
    | nil => simp
    | cons i news ih => simp [ih,EnqueueBack]
  rw [enqueued,back]
  refine ((front _ _).append_right _).trans ?_
  rw [List.append_assoc,List.append_assoc]
  exact List.Perm.append_left _ List.perm_append_comm

/-- What a step of the queue is: a worker takes or ends a callback or ends itself, or a callback acts. -/
inductive Stepped (begin : ι → π) (act : σ → π → β → Option (Result ι π σ)) (q q' : Queue ι π σ) (k : Nat) (choice : β) : Prop
  | turned (shared : q'.shared = q.shared) (weighs : ∀ f g, (∀ i, g (begin i) = f i) → total f g q' = total f g q)
    (items : q'.queueItems ⊆ q.queueItems)
    (running : ∀ p, .running p ∈ q'.workers → .running p ∈ q.workers ∨ ∃ i ∈ q.queueItems, p = begin i)
  | acted (p : π) (r : Result ι π σ) (running : q.workers[k]? = some (.running p)) (acted : act q.shared p choice = some r)
    (shared : q'.shared = r.shared)
    (weighs : ∀ f g, total f g q' + g p =
      total f g q + r.goesOn g + ((r.front ++ r.back).map f).sum)
    (items : ∀ i ∈ q'.queueItems, i ∈ q.queueItems ∨ i ∈ r.front ++ r.back)
    (still : ∀ p, .running p ∈ q'.workers → .running p ∈ q.workers ∨ r.next = .inl p)
    (returned : ∀ ok, r.next = .inr ok → .completing ok ∈ q'.workers)

theorem stepped (taken : step begin act q l = some q') : Stepped begin act q q' l.1 l.2.2 := by
  obtain ⟨k,cancelled,choice⟩ := l
  rw [step] at taken
  cases found : q.workers[k]? with
  | none =>
    rw [found] at taken
    contradiction
  | some worker =>
    have others (b : Worker π) (p : π) (member : .running p ∈ q.workers.set k b) : .running p ∈ q.workers ∨ .running p = b :=
      List.mem_or_eq_of_mem_set member
    have weighed (g : π → Nat) (b : Worker π) :=
      sum_map_set (fun w => match w with | .running p => g p | _ => 0) found b
    rw [found] at taken
    cases worker with
    | stopped => contradiction
    | completing ok =>
      cases taken
      refine .turned rfl (fun f g _ => ?_) (List.Subset.refl _) fun p member => ?_
      · have moved := weighed g (if ok then .idle else .stopped false)
        rw [total,total]
        cases ok <;> simp at moved ⊢ <;> omega
      · rcases others _ p member with before | now
        · exact .inl before
        · cases ok <;> contradiction
    | running p =>
      obtain ⟨r,acted,equal⟩ := Option.map_eq_some_iff.mp taken
      cases equal
      refine .acted p r found acted rfl (fun f g => ?_) (fun i member => ?_) (fun p' member => ?_)
        fun ok next => ?_
      · have moved := weighed g (match r.next with | .inl p => .running p | .inr ok => .completing ok)
        have items := ((perm_enqueued q.queueItems r).map f).sum_nat
        rw [total,total,Result.goesOn]
        simp only [List.map_append,List.sum_append_nat] at items ⊢
        cases next : r.next <;> simp only [next] at moved ⊢ <;> omega
      · have perm := (perm_enqueued q.queueItems r).mem_iff.mp member
        exact (List.mem_append.mp perm).symm
      · rcases others _ p' member with before | now
        · exact .inl before
        · cases next : r.next with
          | inl p =>
            rw [next] at now
            cases now
            exact .inr rfl
          | inr ok =>
            rw [next] at now
            contradiction
      · rw [next]
        exact List.mem_set (List.getElem?_eq_some_iff.mp found).1 _
    | idle =>
      simp only at taken
      have ended (ok : Bool) : Stepped begin act q { q with workers := q.workers.set k (.stopped ok) } k choice := by
        refine .turned rfl (fun f g _ => ?_) (List.Subset.refl _) fun p member => ?_
        · have moved := weighed g (.stopped ok)
          rw [total,total]
          simp only at moved ⊢
          omega
        · rcases others _ p member with before | now
          · exact .inl before
          · contradiction
      split at taken
      next =>
        cases taken
        exact ended false
      next =>
        cases items : q.queueItems with
        | nil =>
          rw [items] at taken
          simp only at taken
          split at taken
          next => contradiction
          next =>
            cases taken
            have stop := ended true
            rw [items] at stop
            exact stop
        | cons i rest =>
          rw [items] at taken
          cases taken
          refine .turned rfl (fun f g begun => ?_) (fun j member => items ▸ List.mem_cons_of_mem i member) fun p member => ?_
          · have moved := weighed g (.running (begin i))
            have same := begun i
            rw [total,total,items]
            simp only [List.map_cons,List.sum_cons] at moved ⊢
            omega
          · rcases others _ p member with before | now
            · exact .inl before
            · cases now
              exact .inr ⟨i,items ▸ List.mem_cons_self,rfl⟩

theorem le_total (f : ι → Nat) (g : π → Nat) {p : π} (running : .running p ∈ q.workers) : g p ≤ total f g q := by
  obtain ⟨before,after,split⟩ := List.append_of_mem running
  rw [total,split]
  simp only [List.map_append,List.map_cons,List.sum_append_nat,List.sum_cons]
  omega

/-- A step changes one worker, which has not ended. -/
theorem step_set (taken : step begin act q l = some q') :
    ∃ w w', q.workers[l.1]? = some w ∧ q'.workers = q.workers.set l.1 w' ∧ w ≠ .stopped false ∧
      (w = .completing false → w' = .stopped false) := by
  obtain ⟨k,cancelled,choice⟩ := l
  rw [step] at taken
  cases found : q.workers[k]? with
  | none =>
    rw [found] at taken
    contradiction
  | some worker =>
    rw [found] at taken
    refine ⟨worker,?_⟩
    cases worker with
    | stopped => contradiction
    | completing ok =>
      cases taken
      refine ⟨_,rfl,rfl,by simp,fun failed => ?_⟩
      cases failed
      rfl
    | running p =>
      obtain ⟨r,_,equal⟩ := Option.map_eq_some_iff.mp taken
      cases equal
      exact ⟨_,rfl,rfl,by simp,by simp⟩
    | idle =>
      simp only at taken
      split at taken
      next =>
        cases taken
        exact ⟨_,rfl,rfl,by simp,by simp⟩
      next =>
        split at taken
        next =>
          split at taken
          next => contradiction
          next =>
            cases taken
            exact ⟨_,rfl,rfl,by simp,by simp⟩
        next =>
          cases taken
          exact ⟨_,rfl,rfl,by simp,by simp⟩

theorem length_step (taken : step begin act q l = some q') : q'.workers.length = q.workers.length := by
  obtain ⟨_,_,_,set,_⟩ := step_set taken
  rw [set,List.length_set]

/-- A worker has failed, or is about to. -/
def Failed (q : Queue ι π σ) : Prop := .completing false ∈ q.workers ∨ .stopped false ∈ q.workers

theorem failed_step (failed : Failed q) (taken : step begin act q l = some q') : Failed q' := by
  obtain ⟨w,w',found,set,alive,stops⟩ := step_set taken
  obtain ⟨bound,is⟩ := List.getElem?_eq_some_iff.mp found
  have kept {b : Worker π} (member : b ∈ q.workers) (other : b ≠ w) : b ∈ q'.workers := by
    obtain ⟨j,inside,equal⟩ := List.getElem_of_mem member
    have apart : l.1 ≠ j := by
      rintro rfl
      exact other (equal.symm.trans is)
    rw [set]
    refine List.mem_iff_getElem.mpr ⟨j,by rwa [List.length_set],?_⟩
    rw [List.getElem_set_ne apart,equal]
  rcases failed with completing | stopped
  · by_cases acting : w = .completing false
    · refine .inr ?_
      rw [set,stops acting]
      exact List.mem_set bound _
    · exact .inl (kept completing (Ne.symm acting))
  · exact .inr (kept stopped alive.symm)

end Steps

section Ends
variable {begin act} {q q' : Queue ι π σ} {l : Nat × Bool × β}

def busy : Worker π → Bool
  | .running _ | .completing _ => true
  | _ => false

/-- The count of active workers is right, and a worker that ended without an error had nothing left to do. -/
structure Counted (q : Queue ι π σ) : Prop where
  active : q.activeWorkerCount = q.workers.countP busy
  ended : .stopped true ∈ q.workers → q.queueItems = [] ∧ q.activeWorkerCount = 0

theorem countP_set {α : Type} {l : List α} {k : Nat} {a : α} (p : α → Bool) (found : l[k]? = some a) (b : α) :
    (l.set k b).countP p + (p a).toNat = l.countP p + (p b).toNat := by
  have weights (l : List α) : l.countP p = (l.map fun a => (p a).toNat).sum := by
    induction l with
    | nil => rfl
    | cons c l ih =>
      rw [List.countP_cons,ih,List.map_cons,List.sum_cons]
      cases p c <;> simp [Nat.add_comm]
  rw [weights,weights]
  exact sum_map_set (fun a => (p a).toNat) found b

theorem counted_step (counted : Counted q) (taken : step begin act q l = some q') : Counted q' := by
  obtain ⟨k,cancelled,choice⟩ := l
  obtain ⟨active,ended⟩ := counted
  rw [step] at taken
  cases found : q.workers[k]? with
  | none =>
    rw [found] at taken
    contradiction
  | some worker =>
    have counts := countP_set busy found
    have member := List.mem_of_getElem? found
    have idle (stopped : .stopped true ∈ q.workers) : busy worker = false := by
      have none := (ended stopped).2
      rw [active] at none
      have free := List.countP_eq_zero.mp (Int.ofNat.inj none) worker member
      simpa using free
    rw [found] at taken
    cases worker with
    | stopped => contradiction
    | completing ok =>
      cases taken
      refine ⟨?_,fun stopped => ?_⟩
      · have moved := counts (if ok then .idle else .stopped false)
        rw [active]
        cases ok <;> simp [busy] at moved ⊢ <;> omega
      · rcases List.mem_or_eq_of_mem_set stopped with before | now
        · exact absurd (idle before) (by simp [busy])
        · cases ok <;> simp at now
    | running p =>
      obtain ⟨r,acted,equal⟩ := Option.map_eq_some_iff.mp taken
      cases equal
      refine ⟨?_,fun stopped => ?_⟩
      · have moved := counts (match r.next with | .inl p => .running p | .inr ok => .completing ok)
        rw [active]
        cases next : r.next <;> simp [next,busy] at moved ⊢ <;> omega
      · rcases List.mem_or_eq_of_mem_set stopped with before | now
        · exact absurd (idle before) (by simp [busy])
        · cases next : r.next <;> rw [next] at now <;> contradiction
    | idle =>
      simp only at taken
      split at taken
      next =>
        cases taken
        have moved := counts (.stopped false)
        refine ⟨?_,fun stopped => ?_⟩
        · rw [active]
          simp [busy] at moved ⊢
          omega
        · rcases List.mem_or_eq_of_mem_set stopped with before | now
          · exact ended before
          · simp at now
      next =>
        cases items : q.queueItems with
        | nil =>
          rw [items] at taken
          simp only at taken
          split at taken
          next => contradiction
          next none =>
            cases taken
            have moved := counts (.stopped true)
            refine ⟨?_,fun _ => ⟨rfl,?_⟩⟩
            · rw [active]
              simp [busy] at moved ⊢
              omega
            · rw [active] at none ⊢
              omega
        | cons i rest =>
          rw [items] at taken
          cases taken
          have moved := counts (.running (begin i))
          refine ⟨?_,fun stopped => ?_⟩
          · rw [active]
            simp [busy] at moved ⊢
            omega
          · rcases List.mem_or_eq_of_mem_set stopped with before | now
            · rw [items] at ended
              exact absurd (ended before).1 (List.cons_ne_nil _ _)
            · contradiction

theorem counted_process (items : List ι) (shared : σ) (workers : Nat) : Counted (Process (π := π) items shared workers) := by
  refine ⟨?_,fun stopped => ?_⟩
  · rw [Process,List.countP_eq_zero.mpr]
    · rfl
    · intro w member
      rw [List.eq_of_mem_replicate member]
      simp [busy]
  · have idle := List.eq_of_mem_replicate stopped
    contradiction

/-- Where all workers have ended without an error, nothing is left. -/
theorem Counted.drained (counted : Counted q) (some : q.workers ≠ []) (ended : ∀ w ∈ q.workers, w = .stopped true)
    (f : ι → Nat) (g : π → Nat) : total f g q = 0 := by
  obtain ⟨w,workers,shape⟩ := List.exists_cons_of_ne_nil some
  have first := ended w (shape ▸ List.mem_cons_self)
  have none := (counted.ended (first ▸ shape ▸ List.mem_cons_self)).1
  rw [total,none,List.eq_replicate_of_mem ended]
  simp

end Ends

end Queue

end Vbe.Parallelwork
