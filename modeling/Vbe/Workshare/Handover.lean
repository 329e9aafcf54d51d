import Vbe.Workshare.Pool

/-! Whoever hands a request over has a worker of its own for it, and the goroutines of a pool never all wait for each other. -/
namespace Vbe.Workshare
open Vbe.Library Family

variable {μ κ : Type} {client : ProcessFunc μ κ} {numWorkers : Int}

namespace Place

/-- From the token that `CanShareWork` gets until the worker gives it back. -/
def holding : Place → Bool
  | .released | .signalled | .finished => false
  | _ => true

/-- From the item in the channel until the worker waits for the next. -/
def occupied : Place → Bool
  | .sent | .finished => false
  | _ => true

def active : Place → Bool
  | .running | .calling | .waiting | .processed => true
  | _ => false

/-- The worker has given its token back, and has no item yet. -/
def returning : Place → Bool
  | .released | .signalled => true
  | _ => false

/-- Requests that were not handed over are never there. -/
def apart : Place → Bool
  | .running | .calling | .waiting | .finished => false
  | _ => true

/-- Nothing keeps a worker from going on from there. -/
def free : Place → Bool
  | .taken | .processed | .counted | .released | .signalled => true
  | _ => false

end Place

namespace Task

def holding (t : Task κ) : Bool := t.async && t.place.holding

def occupied (t : Task κ) : Bool := t.async && t.place.occupied

def active (t : Task κ) : Bool := t.async && t.place.active

def Proper (t : Task κ) : Prop := t.place.apart = true → t.async = true

end Task

section Balance
variable {pool : Pool μ} {t : Task κ} {started : List (Task κ)} {r : Action (Pool μ) (Task κ) Unit}

theorem Acts.proper (acts : Acts client numWorkers pool started t r) (proper : t.Proper) :
    r.label.Proper ∧ ∀ b ∈ r.new, b.Proper := by
  have fresh (request : κ) : ∀ b ∈ [(⟨true,.sent,request⟩ : Task κ)], b.Proper := fun b member => by
    rw [List.mem_singleton.mp member]
    exact fun _ => rfl
  have inner (request : κ) : ∀ b ∈ [(⟨false,.running,request⟩ : Task κ)], b.Proper := fun b member => by
    rw [List.mem_singleton.mp member]
    exact fun wrong => absurd wrong Bool.false_ne_true
  have none : ∀ b ∈ ([] : List (Task κ)), b.Proper := fun b member => absurd member List.not_mem_nil
  cases acts with
  | shared => exact ⟨fun wrong => absurd wrong Bool.false_ne_true,fresh _⟩
  | called => exact ⟨fun wrong => absurd wrong Bool.false_ne_true,inner _⟩
  | returned =>
    rename_i async state _ _
    refine ⟨fun wrong => ?_,none⟩
    cases async with
    | true => rfl
    | false => exact absurd wrong Bool.false_ne_true
  | taken | counted | released | signalled => exact ⟨fun _ => proper rfl,none⟩
  | begun | went | waits | back | waited | idle => exact ⟨fun wrong => absurd wrong Bool.false_ne_true,none⟩

/-- The tokens are those of the requests that hold one. -/
theorem Acts.tokens (acts : Acts client numWorkers pool started t r) (proper : t.Proper) (held : t.holding.toNat ≤ pool.semaphore) :
    r.label.holding.toNat + r.new.countP Task.holding + pool.semaphore = t.holding.toNat + r.shared.semaphore := by
  cases acts with
  | released =>
    cases proper rfl
    have held : 1 ≤ pool.semaphore := held
    simp [Task.holding,Place.holding]
    omega
  | returned =>
    rename_i async state _ _
    cases async <;> simp [Task.holding,Place.holding]
  | shared => simp [Task.holding,Place.holding,Nat.add_comm,Nat.add_left_comm]
  | called => simp [Task.holding,Place.holding]
  | _ => simp [Task.holding,Place.holding]

/-- Every worker is idle or has a request. -/
theorem Acts.crew (acts : Acts client numWorkers pool started t r) (proper : t.Proper) :
    r.shared.idle + (r.label.occupied.toNat + r.new.countP Task.occupied) = pool.idle + t.occupied.toNat := by
  cases acts with
  | taken free =>
    cases proper rfl
    simp [Task.occupied,Place.occupied]
    omega
  | idle =>
    cases proper rfl
    simp [Task.occupied,Place.occupied]
  | returned =>
    rename_i async state _ _
    cases async <;> simp [Task.occupied,Place.occupied]
  | _ => simp [Task.occupied,Place.occupied]

theorem Acts.activeWorkers (acts : Acts client numWorkers pool started t r) (proper : t.Proper) (held : t.active.toNat ≤ pool.activeWorkers) :
    r.label.active.toNat + r.new.countP Task.active + pool.activeWorkers = t.active.toNat + r.shared.activeWorkers := by
  cases acts with
  | begun =>
    cases proper rfl
    simp [Task.active,Place.active,Nat.add_comm]
  | counted =>
    cases proper rfl
    have held : 1 ≤ pool.activeWorkers := held
    simp [Task.active,Place.active]
    omega
  | returned =>
    rename_i async state _ _
    cases async <;> simp [Task.active,Place.active]
  | _ => simp [Task.active,Place.active]

theorem Acts.capacity (acts : Acts client numWorkers pool started t r) (bound : pool.semaphore ≤ workers numWorkers) :
    r.shared.semaphore ≤ workers numWorkers := by
  cases acts with
  | shared _ _ room => exact room
  | released => exact Nat.le_trans (Nat.sub_le _ _) bound
  | _ => exact bound

end Balance

section Pooled
variable {c d : Library.Calls (Pool μ) (Task κ) Unit} {l : Nat × Position × Unit} {labels : List (Nat × Position × Unit)}
  {memory : μ} {requests : List κ}

/-- The state of the pool tells how the requests are. -/
structure Pooled (numWorkers : Int) (c : Library.Calls (Pool μ) (Task κ) Unit) : Prop where
  tokens : c.labels.countP Task.holding = c.shared.semaphore
  capacity : c.shared.semaphore ≤ workers numWorkers
  crew : c.shared.idle + c.labels.countP Task.occupied = workers numWorkers
  active : c.labels.countP Task.active = c.shared.activeWorkers
  proper : ∀ t ∈ c.labels, t.Proper

theorem pooled_start : Pooled numWorkers (start numWorkers memory requests) := by
  have inner (t : Task κ) (member : t ∈ (start numWorkers memory requests).labels) : ∃ k, t = ⟨false,.running,k⟩ := by
    rw [start,Library.Calls.labels_of] at member
    obtain ⟨k,_,rfl⟩ := List.mem_map.mp member
    exact ⟨k,rfl⟩
  have none (p : Task κ → Bool) (apart : ∀ k, p ⟨false,.running,k⟩ = false) : (start numWorkers memory requests).labels.countP p = 0 := by
    rw [List.countP_eq_zero]
    intro t member
    obtain ⟨k,rfl⟩ := inner t member
    simp [apart]
  refine ⟨none _ fun _ => rfl,Nat.zero_le _,?_,none _ fun _ => rfl,fun t member => ?_⟩
  · rw [none _ fun _ => rfl]
    rfl
  · obtain ⟨k,rfl⟩ := inner t member
    exact fun wrong => absurd wrong Bool.false_ne_true

theorem toNat_le_countP {α : Type} {p : α → Bool} {a : α} {l : List α} (member : a ∈ l) : (p a).toNat ≤ l.countP p := by
  cases holds : p a with
  | true => exact List.countP_pos_iff.mpr ⟨a,member,holds⟩
  | false => exact Nat.zero_le _

theorem countP_cons_toNat {α : Type} (p : α → Bool) (a : α) (l : List α) : (a :: l).countP p = (p a).toNat + l.countP p := by
  rw [List.countP_cons,Nat.add_comm]
  cases p a <;> rfl

theorem pooled_step (pooled : Pooled numWorkers c) (taken : Library.Calls.step (act client numWorkers) c l = some d) : Pooled numWorkers d := by
  obtain ⟨t,started,r,others,one⟩ := Library.Calls.stepped taken
  have acts := acts one.acted
  have member : t ∈ c.labels := one.labels.mem_iff.mpr List.mem_cons_self
  have proper := pooled.proper t member
  have before (p : Task κ → Bool) : c.labels.countP p = (p t).toNat + others.countP p := by
    rw [one.labels.countP_eq,countP_cons_toNat]
  have after (p : Task κ → Bool) : d.labels.countP p = (p r.label).toNat + (r.new.countP p + others.countP p) := by
    rw [one.labels'.countP_eq,countP_cons_toNat,List.countP_append]
  have tokens := acts.tokens proper (pooled.tokens ▸ toNat_le_countP member)
  have crew := acts.crew proper
  have active := acts.activeWorkers proper (pooled.active ▸ toNat_le_countP member)
  have count := pooled.tokens
  have whole := pooled.crew
  have busy := pooled.active
  rw [before] at count whole busy
  refine ⟨?_,one.shared ▸ acts.capacity pooled.capacity,?_,?_,fun b there => ?_⟩
  · rw [after,one.shared]
    omega
  · rw [after,one.shared]
    omega
  · rw [after,one.shared]
    omega
  · rcases List.mem_cons.mp (one.labels'.mem_iff.mp there) with rfl | there
    · exact (acts.proper proper).1
    rcases List.mem_append.mp there with fresh | other
    · exact (acts.proper proper).2 b fresh
    · exact pooled.proper b (one.labels.mem_iff.mpr (List.mem_cons_of_mem t other))

theorem pooled (reached : Runs.run (Library.Calls.step (act client numWorkers)) (start numWorkers memory requests) labels = some c) :
    Pooled numWorkers c :=
  Runs.invariant (fun _ _ _ inv _ taken => pooled_step inv taken) pooled_start (Runs.meets_true _ _) reached

theorem countP_add_le {α : Type} {p q p' q' : α → Bool} {l : List α}
    (less : ∀ a ∈ l, (p a).toNat + (q a).toNat ≤ (p' a).toNat + (q' a).toNat) : l.countP p + l.countP q ≤ l.countP p' + l.countP q' := by
  induction l with
  | nil => exact Nat.le_refl _
  | cons a l ih =>
    have first := less a List.mem_cons_self
    have later := ih fun b member => less b (List.mem_cons_of_mem a member)
    simp only [countP_cons_toNat]
    omega

/-- As many workers are idle or on their way to be so as requests are in the channel. -/
theorem Pooled.handover (pooled : Pooled numWorkers c) :
    c.labels.countP (·.place = .sent) ≤ c.shared.idle + c.labels.countP fun t => t.place.returning := by
  have balance : c.labels.countP (·.place = .sent) + c.labels.countP Task.occupied ≤
      c.labels.countP Task.holding + c.labels.countP fun t => t.place.returning := by
    refine countP_add_le fun t member => ?_
    have proper := pooled.proper t member
    obtain ⟨async,place,state⟩ := t
    cases async with
    | true => cases place <;> simp [Task.occupied,Task.holding,Place.occupied,Place.holding,Place.returning]
    | false => cases place <;> first | exact absurd (proper rfl) Bool.false_ne_true | simp [Task.occupied,Task.holding]
  have tokens := pooled.tokens
  have capacity := pooled.capacity
  have crew := pooled.crew
  omega

end Pooled

section Progress
variable {c : Library.Calls (Pool μ) (Task κ) Unit} {labels : List (Nat × Position × Unit)} {memory : μ} {requests : List κ}

/-- A goroutine that is in a call of the process function has started one. -/
def Called (t : Task κ) (started : List (Task κ)) : Prop := t.place = .calling → started ≠ []

theorem keeping_called : Keeping (act client numWorkers) (fun _ => True) (Called (κ := κ)) := by
  constructor
  · intro pool t started _ r _ _ called acted
    have fresh (b : Task κ) (apart : b.place ≠ .calling) : Called b [] := fun wrong => absurd wrong apart
    cases acts acted with
    | shared =>
      refine ⟨trivial,fun _ => List.cons_ne_nil _ _,fun b member => ?_⟩
      rw [List.mem_singleton.mp member]
      exact fresh _ (by simp)
    | called =>
      refine ⟨trivial,fun _ => List.cons_ne_nil _ _,fun b member => ?_⟩
      rw [List.mem_singleton.mp member]
      exact fresh _ (by simp)
    | returned =>
      rename_i async state _ _
      refine ⟨trivial,fun wrong => ?_,fun b member => absurd member List.not_mem_nil⟩
      cases async <;> simp at wrong
    | _ => exact ⟨trivial,fun wrong => absurd wrong (by simp),fun b member => absurd member List.not_mem_nil⟩
  · intro _ _ _ _ _ _ _ _ _ _ _ _
    simp

theorem moves_free {pool : Pool μ} {t : Task κ} (free : t.place.free = true) (started : List (Task κ)) :
    ∃ l r, act client numWorkers pool t started l = some r := by
  obtain ⟨async,place,state⟩ := t
  cases place <;> first | exact ⟨(),_,rfl⟩ | exact absurd free Bool.false_ne_true

theorem moves_quiet {pool : Pool μ} {t : Task κ} {started : List (Task κ)} (called : Called t started)
    (inside : t.place = .running ∨ t.place = .calling ∨ t.place = .waiting) (over_ : ∀ b ∈ started, b.place = .finished) :
    ∃ l r, act client numWorkers pool t started l = some r := by
  obtain ⟨async,place,state⟩ := t
  rcases inside with rfl | rfl | rfl
  · have quiet : started.any (·.place = .sent) = false := by
      simp only [List.any_eq_false,decide_eq_true_eq]
      intro b member
      rw [over_ b member]
      decide
    simp only [act,quiet]
    cases client.next pool.memory state with
    | child memory request shared inline =>
      by_cases room : pool.semaphore < workers numWorkers
      · exact ⟨(),by simp [room]⟩
      · exact ⟨(),by simp [room]⟩
    | _ => exact ⟨(),_,rfl⟩
  · cases started with
    | nil => exact absurd rfl (called rfl)
    | cons b rest => exact ⟨(),by simp [act,over_ b List.mem_cons_self]⟩
  · have all : started.all Task.done = true := by
      rw [List.all_eq_true]
      intro b member
      simp [Task.done,over_ b member]
    exact ⟨(),by simp [act,all]⟩

theorem everywhere_called (reached : Runs.run (Library.Calls.step (act client numWorkers)) (start numWorkers memory requests) labels = some c) :
    ∀ call ∈ c.calls, call.tasks.Everywhere Called := by
  have kept (s l t) (all : ∀ call ∈ s.calls, call.tasks.Everywhere Called) (_ : True)
      (taken : Library.Calls.step (act client numWorkers) s l = some t) : ∀ call ∈ t.calls, call.tasks.Everywhere Called :=
    (Library.Calls.everywhere_step keeping_called trivial all taken).2
  refine Runs.invariant kept ?_ (Runs.meets_true _ _) reached
  refine Library.Calls.everywhere_of_labels fun t member => ?_
  obtain ⟨k,_,rfl⟩ := List.mem_map.mp member
  exact fun wrong => absurd wrong (by simp)

/-- As long as a request is not finished, some goroutine can go on. -/
theorem exists_step (reached : Runs.run (Library.Calls.step (act client numWorkers)) (start numWorkers memory requests) labels = some c)
    (unfinished : ∃ t ∈ c.labels, t.place ≠ .finished) : ∃ l, Library.Calls.step (act client numWorkers) c l ≠ none := by
  by_cases free : ∃ t ∈ c.labels, t.place.free = true
  · obtain ⟨t,member,free⟩ := free
    exact Library.Calls.exists_step_of_mem member (moves_free free)
  have waits (t : Task κ) (member : t ∈ c.labels) : t.place.free = false := by
    by_contra other
    exact free ⟨t,member,by simpa using other⟩
  by_cases sent : ∃ t ∈ c.labels, t.place = .sent
  · obtain ⟨t,member,sent⟩ := sent
    have away : (c.labels.countP fun t => t.place.returning) = 0 := by
      rw [List.countP_eq_zero]
      intro b there
      have apart := waits b there
      revert apart
      cases b.place <;> decide
    have some_ : 0 < c.labels.countP (·.place = .sent) := List.countP_pos_iff.mpr ⟨t,member,by simpa using sent⟩
    have worker := (pooled reached).handover
    have idle : 0 < c.shared.idle := by omega
    refine Library.Calls.exists_step_of_mem member fun started => ⟨(),?_⟩
    simp [act,sent,idle]
  · refine Library.Calls.exists_step_of (fun t => t.place = .finished) (everywhere_called reached) ?_ ?_
    · intro t member started called open_ over_
      refine moves_quiet called ?_ fun b there => by simpa using over_ b there
      have apart := waits t member
      have unsent : t.place ≠ .sent := fun wrong => sent ⟨t,member,wrong⟩
      revert apart unsent open_
      cases t.place <;> decide
    · obtain ⟨t,member,unfinished⟩ := unfinished
      exact ⟨t,member,by simpa using unfinished⟩

/-- Whatever the requests do, each one that is handed over has a worker that is idle or about to be, no more workers than there are
count as active, which are those that process a request, and the goroutines never all wait. -/
theorem handed_over (reached : Runs.run (Library.Calls.step (act client numWorkers)) (start numWorkers memory requests) labels = some c) :
    c.labels.countP (·.place = .sent) ≤ c.shared.idle + (c.labels.countP fun t => t.place.returning) ∧
      c.shared.activeWorkers = c.labels.countP (fun t => t.async && t.place.active) ∧ c.shared.activeWorkers ≤ workers numWorkers ∧
      ((∃ t ∈ c.labels, t.place ≠ .finished) → ∃ l d, Library.Calls.step (act client numWorkers) c l = some d) := by
  have pooled := pooled reached
  refine ⟨pooled.handover,pooled.active.symm,?_,fun unfinished => ?_⟩
  · have below : c.labels.countP Task.active ≤ c.labels.countP Task.holding := by
      refine List.countP_mono_left fun t _ active => ?_
      obtain ⟨async,place,state⟩ := t
      revert active
      cases async <;> cases place <;> simp [Task.active,Task.holding,Place.active,Place.holding]
    rw [← pooled.active]
    exact Nat.le_trans below (pooled.tokens ▸ pooled.capacity)
  · obtain ⟨l,moved⟩ := exists_step reached unfinished
    obtain ⟨d,taken⟩ := Option.ne_none_iff_exists'.mp moved
    exact ⟨l,d,taken⟩

/-- A request in the channel, and a worker for it. -/
theorem handed_over_one :
    let client : ProcessFunc Unit Nat := ⟨fun _ k => if k = 1 then .child () 0 2 3 else .ret,fun k _ => k,fun k _ => k⟩
    ∃ c, Runs.run (Library.Calls.step (act client 1)) (start 1 () [1]) [(0,.here,())] = some c ∧
      c.labels.countP (·.place = .sent) = 1 ∧
      c.labels.countP (·.place = .sent) ≤ c.shared.idle + c.labels.countP fun t => t.place.returning := by
  intro client
  have reached : Runs.run (Library.Calls.step (act client 1)) (start 1 () [1]) [(0,.here,())] = some _ := rfl
  exact ⟨_,reached,rfl,(handed_over reached).1⟩

end Progress

section Length
variable {c : Library.Calls (Pool μ) (Task κ) Unit} {labels : List (Nat × Position × Unit)} {memory : μ} {requests : List κ}
  {rank : κ → Nat}

/-- Each request has a rank that what it does lowers. -/
structure Lowers (client : ProcessFunc μ κ) (rank : κ → Nat) : Prop where
  go : ∀ {m k m' k'}, client.next m k = .go m' k' → rank k' < rank k
  shared : ∀ {m k m' request shared inline}, client.next m k = .child m' request shared inline → rank request + rank shared + 3 ≤ rank k
  inline : ∀ {m k m' request shared inline}, client.next m k = .child m' request shared inline → rank request + rank inline + 3 ≤ rank k
  wait : ∀ {m k k'}, client.next m k = .wait k' → rank k' < rank k
  called : ∀ k k', rank (client.called k k') ≤ rank k
  waited : ∀ k ks, rank (client.waited k ks) ≤ rank k

def Task.weight (rank : κ → Nat) (t : Task κ) : Nat :=
  match t.place with
  | .sent => 3 * rank t.state + 8
  | .taken | .calling | .waiting => 3 * rank t.state + 7
  | .running => 3 * rank t.state + 6
  | .processed => 4
  | .counted => 3
  | .released => 2
  | .signalled => 1
  | .finished => 0

theorem Acts.weight {pool : Pool μ} {t : Task κ} {started : List (Task κ)} {r : Action (Pool μ) (Task κ) Unit}
    (lowers : Lowers client rank) (acts : Acts client numWorkers pool started t r) :
    r.label.weight rank + (r.new.map (Task.weight rank)).sum < t.weight rank := by
  cases acts with
  | went _ next =>
    have lower := lowers.go next
    simp [Task.weight]
    omega
  | shared _ next =>
    have lower := lowers.shared next
    simp [Task.weight]
    omega
  | called _ next =>
    have lower := lowers.inline next
    simp [Task.weight]
    omega
  | waits _ next =>
    have lower := lowers.wait next
    simp [Task.weight]
    omega
  | returned =>
    rename_i async state _ _
    cases async <;> simp [Task.weight]
  | back =>
    rename_i async state b rest _ _
    have lower := lowers.called state b.state
    simp [Task.weight]
    omega
  | waited =>
    rename_i async state _
    have lower := lowers.waited state (Task.requests started)
    simp [Task.weight]
    omega
  | _ => simp [Task.weight]

/-- No run is longer than the ranks of its requests allow. -/
theorem run_length (lowers : Lowers client rank)
    (reached : Runs.run (Library.Calls.step (act client numWorkers)) (start numWorkers memory requests) labels = some c) :
    labels.length ≤ (requests.map fun k => 3 * rank k + 6).sum := by
  have bound := Library.Calls.run_length (Task.weight rank) (fun _ _ _ _ _ acted => (acts acted).weight lowers) reached
  refine Nat.le_trans (Nat.le_add_right _ _) (Nat.le_trans bound (Nat.le_of_eq ?_))
  rw [Library.Calls.total,start,Library.Calls.labels_of,List.map_map]
  rfl

end Length

end Vbe.Workshare
