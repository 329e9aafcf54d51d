import Vbe.Parallelwork.Queue

/-! A work queue gets done: its steps one by one, an effort that they use up, and what may come next. -/
namespace Vbe.Parallelwork
open Vbe.Library

variable {ι π σ β : Type} {begin : ι → π} {act : σ → π → β → Option (Result ι π σ)}

/-- What a worker has to do itself, where its callback takes as many actions as it says. -/
def Worker.effort (g : π → Nat) : Worker π → Nat
  | .idle => 1
  | .running p => g p
  | .completing _ => 2
  | .stopped _ => 0

/-- What is left to do after an action of a callback. -/
def Result.effort (f : ι → Nat) (g : π → Nat) (r : Result ι π σ) : Nat :=
  ((r.front ++ r.back).map f).sum + match r.next with
    | .inl p => g p
    | .inr _ => 2

namespace Queue

/-- The steps of a queue one by one. -/
inductive Moved (begin : ι → π) (act : σ → π → β → Option (Result ι π σ)) (q : Queue ι π σ) (k : Nat) (cancelled : Bool) (choice : β) :
    Queue ι π σ → Prop
  | cancel (idle : q.workers[k]? = some .idle) (noticed : cancelled = true) :
    Moved begin act q k cancelled choice { q with workers := q.workers.set k (.stopped false) }
  | finish (idle : q.workers[k]? = some .idle) (empty : q.queueItems = []) (nobody : ¬ q.activeWorkerCount > 0) :
    Moved begin act q k cancelled choice { q with workers := q.workers.set k (.stopped true) }
  | take (i : ι) (items : List ι) (idle : q.workers[k]? = some .idle) (first : q.queueItems = i :: items) :
    Moved begin act q k cancelled choice { q with
      queueItems := items
      activeWorkerCount := q.activeWorkerCount + 1
      workers := q.workers.set k (.running (begin i)) }
  | act (p : π) (r : Result ι π σ) (running : q.workers[k]? = some (.running p)) (acted : act q.shared p choice = some r) :
    Moved begin act q k cancelled choice { q with
      queueItems := enqueued q.queueItems r
      workers := q.workers.set k (match r.next with | .inl p => .running p | .inr ok => .completing ok)
      shared := r.shared }
  | complete (ok : Bool) (completing : q.workers[k]? = some (.completing ok)) :
    Moved begin act q k cancelled choice { q with
      activeWorkerCount := q.activeWorkerCount - 1
      workers := q.workers.set k (if ok then .idle else .stopped false) }

/-- What is left to do. -/
def effort (f : ι → Nat) (g : π → Nat) (q : Queue ι π σ) : Nat :=
  (q.queueItems.map f).sum + (q.workers.map (Worker.effort g)).sum

section Steps
variable {q q' : Queue ι π σ} {l : Nat × Bool × β}

theorem moved (taken : step begin act q l = some q') : Moved begin act q l.1 l.2.1 l.2.2 q' := by
  obtain ⟨k,cancelled,choice⟩ := l
  rw [step] at taken
  split at taken
  next idle =>
    split at taken
    next noticed =>
      cases taken
      exact .cancel idle noticed
    next =>
      split at taken
      next empty =>
        split at taken
        next => contradiction
        next nobody =>
          cases taken
          exact .finish idle empty nobody
      next i items first =>
        cases taken
        exact .take i items idle first
  next p running =>
    obtain ⟨r,acted,equal⟩ := Option.map_eq_some_iff.mp taken
    cases equal
    exact .act p r running acted
  next ok completing =>
    cases taken
    exact .complete ok completing
  next => contradiction

/-- Every step uses up effort if every action of a callback does, with what it leaves to others. -/
theorem effort_step {f : ι → Nat} {g : π → Nat} (h : σ → Nat) (begins : ∀ i ∈ q.queueItems, g (begin i) ≤ f i)
    (acts : ∀ p choice r, .running p ∈ q.workers → act q.shared p choice = some r → r.effort f g + h r.shared < g p + h q.shared)
    (taken : step begin act q l = some q') : q'.effort f g + h q'.shared < q.effort f g + h q.shared := by
  have weighed {worker : Worker π} (found : q.workers[l.1]? = some worker) (b : Worker π) := sum_map_set (Worker.effort g) found b
  cases moved taken with
  | cancel idle noticed =>
    have moved := weighed idle (.stopped false)
    simp only [Worker.effort] at moved
    simp only [effort]
    omega
  | finish idle empty nobody =>
    have moved := weighed idle (.stopped true)
    simp only [Worker.effort] at moved
    simp only [effort]
    omega
  | take i items idle first =>
    have moved := weighed idle (.running (begin i))
    have begun := begins i (first ▸ List.mem_cons_self)
    simp only [Worker.effort] at moved
    simp only [effort,first,List.map_cons,List.sum_cons]
    omega
  | act p r running acted =>
    have moved := weighed running (match r.next with | .inl p => .running p | .inr ok => .completing ok)
    have less := acts p l.2.2 r (List.mem_of_getElem? running) acted
    have items := ((perm_enqueued q.queueItems r).map f).sum_nat
    rw [List.map_append,List.sum_append_nat] at items
    rw [Result.effort] at less
    simp only [effort]
    cases next : r.next <;> simp only [next,Worker.effort] at moved less ⊢ <;> omega
  | complete ok completing =>
    have moved := weighed completing (if ok then .idle else .stopped false)
    simp only [effort]
    cases ok <;> simp [Worker.effort] at moved ⊢ <;> omega

/-- No worker fails where no callback does and nobody notices that the context is cancelled. -/
theorem peaceful_step (peaceful : ¬ Failed q) (noticed : l.2.1 = false)
    (acts : ∀ p choice r, .running p ∈ q.workers → act q.shared p choice = some r → r.next ≠ .inr false)
    (taken : step begin act q l = some q') : ¬ Failed q' := by
  have apart {b : Worker π} (one : b ≠ .completing false) (other : b ≠ .stopped false) {workers : List (Worker π)}
      (set : workers = q.workers.set l.1 b) : .completing false ∉ workers ∧ .stopped false ∉ workers := by
    subst set
    constructor
    · intro member
      rcases List.mem_or_eq_of_mem_set member with before | now
      · exact peaceful (.inl before)
      · exact one now.symm
    · intro member
      rcases List.mem_or_eq_of_mem_set member with before | now
      · exact peaceful (.inr before)
      · exact other now.symm
  refine not_or.mpr ?_
  cases moved taken with
  | cancel idle cancelled => exact absurd (noticed.symm.trans cancelled) Bool.false_ne_true
  | finish idle empty nobody => exact apart (by simp) (by simp) rfl
  | take i items idle first => exact apart (by simp) (by simp) rfl
  | act p r running acted =>
    have fine := acts p l.2.2 r (List.mem_of_getElem? running) acted
    refine apart ?_ ?_ rfl
    · cases next : r.next with
      | inl p => simp
      | inr ok =>
        cases ok with
        | true => simp
        | false => exact absurd next fine
    · cases r.next <;> simp
  | complete ok completing =>
    cases ok with
    | true => exact apart (by simp) (by simp) rfl
    | false => exact absurd (.inl (List.mem_of_getElem? completing)) peaceful

/-- A worker can go on unless a callback waits for somebody else, or all workers have ended. -/
theorem exists_step (counted : Counted q) (acts : ∀ p, .running p ∈ q.workers → ∃ choice, act q.shared p choice ≠ none) [Nonempty β] :
    (∀ w ∈ q.workers, ∃ ok, w = .stopped ok) ∨ ∃ l : Nat × Bool × β, l.2.1 = false ∧ step begin act q l ≠ none := by
  obtain ⟨any⟩ := ‹Nonempty β›
  by_cases working : ∃ w ∈ q.workers, busy w = true
  · right
    obtain ⟨w,member,isBusy⟩ := working
    obtain ⟨k,found⟩ := List.mem_iff_getElem?.mp member
    cases w with
    | idle => simp [busy] at isBusy
    | stopped => simp [busy] at isBusy
    | running p =>
      obtain ⟨choice,possible⟩ := acts p member
      refine ⟨(k,false,choice),rfl,?_⟩
      rw [step,found]
      simpa using possible
    | completing ok =>
      refine ⟨(k,false,any),rfl,?_⟩
      rw [step,found]
      simp
  · have nobody : ¬ q.activeWorkerCount > 0 := by
      have none : q.workers.countP busy = 0 := List.countP_eq_zero.mpr fun w member busy => working ⟨w,member,busy⟩
      rw [counted.active,none]
      decide
    by_cases waiting : .idle ∈ q.workers
    · right
      obtain ⟨k,found⟩ := List.mem_iff_getElem?.mp waiting
      refine ⟨(k,false,any),rfl,?_⟩
      rw [step,found]
      cases items : q.queueItems with
      | nil => simp [nobody]
      | cons i rest => simp
    · left
      intro w member
      cases w with
      | idle => exact absurd member waiting
      | running p => exact absurd ⟨_,member,rfl⟩ working
      | completing ok => exact absurd ⟨_,member,rfl⟩ working
      | stopped ok => exact ⟨ok,rfl⟩

end Steps

end Queue

end Vbe.Parallelwork
