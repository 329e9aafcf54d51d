import Vbe.Library.Families

/-! A pool of workers that share the work of goroutines. A goroutine hands a request over where a worker is free, and processes it
by itself where all are busy. Whoever processes a request may hand over others. -/
namespace Vbe.Workshare
open Vbe.Library

section Model
variable {μ κ : Type}

/-- What a process function does next: something to what all requests share, processing another request in a goroutine or by itself,
waiting for the requests of its group, or returning. -/
inductive Move (μ κ : Type)
  | go (memory : μ) (state : κ)
  | child (memory : μ) (request shared inline : κ)
  | wait (state : κ)
  | ret

/-- A process function. It goes on from what a call has returned, and from the requests of its group after the wait. -/
structure ProcessFunc (μ κ : Type) where
  next : μ → κ → Move μ κ
  called : κ → κ → κ
  waited : κ → List κ → κ

/-- Tokens in the semaphore, workers that wait for an item, those that count as active, and what the requests share. -/
structure Pool (μ : Type) where
  semaphore : Nat
  idle : Nat
  activeWorkers : Nat
  memory : μ

/-- As many workers as `NewPool` starts, which is also the capacity of the semaphore. -/
def workers (numWorkers : Int) : Nat := numWorkers.toNat

def NewPool (numWorkers : Int) (memory : μ) : Pool μ := ⟨0,workers numWorkers,0,memory⟩

/-- Where a request is. One for a worker is sent by `RunAsync`, and taken by a worker that is idle. -/
inductive Place
  | sent
  | taken
  | running
  | calling
  | waiting
  | processed
  | counted
  | released
  | signalled
  | finished
deriving DecidableEq

structure Task (κ : Type) where
  async : Bool
  place : Place
  state : κ

namespace Task

/-- Whether the group it is in has been told. -/
def done (t : Task κ) : Bool := t.place = .signalled ∨ t.place = .finished

/-- The states of the requests of a group, in the order of `RunAsync`. -/
def requests (started : List (Task κ)) : List κ := (started.filter Task.async).reverse.map Task.state

end Task

variable (client : ProcessFunc μ κ) (numWorkers : Int)

/-- What a goroutine does next for a request, where those it started are the newest first. -/
def act : Family.Act (Pool μ) (Task κ) Unit Unit := fun pool t started _ =>
  let go (pool : Pool μ) (place : Place) (state : κ) (new : List (Task κ)) :=
    some ⟨pool,{ t with place := place, state := state },new,()⟩
  match t.place with
  | .sent => if 0 < pool.idle then go { pool with idle := pool.idle - 1 } .taken t.state [] else none
  | .taken => go { pool with activeWorkers := pool.activeWorkers + 1 } .running t.state []
  | .running =>
    -- the goroutine is inside `RunAsync` until a worker takes the request
    if started.any (·.place = .sent) then none
    else
      match client.next pool.memory t.state with
      | .go memory state => go { pool with memory := memory } .running state []
      | .child memory request shared inline =>
        if pool.semaphore < workers numWorkers then
          go { pool with memory := memory, semaphore := pool.semaphore + 1 } .running shared [⟨true,.sent,request⟩]
        else go { pool with memory := memory } .calling inline [⟨false,.running,request⟩]
      | .wait state => go pool .waiting state []
      | .ret => go pool (if t.async then .processed else .finished) t.state []
  | .calling =>
    match started with
    | [] => none
    | c :: _ => if c.place = .finished then go pool .running (client.called t.state c.state) [] else none
  | .waiting =>
    if started.all Task.done then go pool .running (client.waited t.state (Task.requests started)) [] else none
  | .processed => go { pool with activeWorkers := pool.activeWorkers - 1 } .counted t.state []
  | .counted => go { pool with semaphore := pool.semaphore - 1 } .released t.state []
  | .released => go pool .signalled t.state []
  | .signalled => go { pool with idle := pool.idle + 1 } .finished t.state []
  | .finished => none

/-- Some goroutines that use one pool, each with a request of its own. -/
def start (memory : μ) (requests : List κ) : Library.Calls (Pool μ) (Task κ) Unit :=
  .of (NewPool numWorkers memory) (requests.map fun k => ⟨false,.running,k⟩)

/-- What a goroutine's request has come to. -/
def result (call : Call (Task κ) Unit) : Option κ :=
  match call.tasks with
  | .cons ⟨_,.finished,state⟩ _ _ => some state
  | _ => none

end Model

section Steps
variable {μ κ : Type} {client : ProcessFunc μ κ} {numWorkers : Int} {pool : Pool μ} {t : Task κ} {started : List (Task κ)}
  {r : Family.Action (Pool μ) (Task κ) Unit}

open Family

/-- What a goroutine may do. -/
inductive Acts (client : ProcessFunc μ κ) (numWorkers : Int) (pool : Pool μ) (started : List (Task κ)) :
    Task κ → Action (Pool μ) (Task κ) Unit → Prop
  | taken {async state} (free : 0 < pool.idle) :
    Acts client numWorkers pool started ⟨async,.sent,state⟩ ⟨{ pool with idle := pool.idle - 1 },⟨async,.taken,state⟩,[],()⟩
  | begun {async state} :
    Acts client numWorkers pool started ⟨async,.taken,state⟩
      ⟨{ pool with activeWorkers := pool.activeWorkers + 1 },⟨async,.running,state⟩,[],()⟩
  | went {async state memory state'} (quiet : ∀ b ∈ started, b.place ≠ .sent) (next : client.next pool.memory state = .go memory state') :
    Acts client numWorkers pool started ⟨async,.running,state⟩ ⟨{ pool with memory := memory },⟨async,.running,state'⟩,[],()⟩
  | shared {async state memory request shared inline} (quiet : ∀ b ∈ started, b.place ≠ .sent)
    (next : client.next pool.memory state = .child memory request shared inline) (room : pool.semaphore < workers numWorkers) :
    Acts client numWorkers pool started ⟨async,.running,state⟩
      ⟨{ pool with memory := memory, semaphore := pool.semaphore + 1 },⟨async,.running,shared⟩,[⟨true,.sent,request⟩],()⟩
  | called {async state memory request shared inline} (quiet : ∀ b ∈ started, b.place ≠ .sent)
    (next : client.next pool.memory state = .child memory request shared inline) (full : ¬pool.semaphore < workers numWorkers) :
    Acts client numWorkers pool started ⟨async,.running,state⟩
      ⟨{ pool with memory := memory },⟨async,.calling,inline⟩,[⟨false,.running,request⟩],()⟩
  | waits {async state state'} (quiet : ∀ b ∈ started, b.place ≠ .sent) (next : client.next pool.memory state = .wait state') :
    Acts client numWorkers pool started ⟨async,.running,state⟩ ⟨pool,⟨async,.waiting,state'⟩,[],()⟩
  | returned {async state} (quiet : ∀ b ∈ started, b.place ≠ .sent) (next : client.next pool.memory state = .ret) :
    Acts client numWorkers pool started ⟨async,.running,state⟩ ⟨pool,⟨async,if async then .processed else .finished,state⟩,[],()⟩
  | back {async state c rest} (first : started = c :: rest) (ended : c.place = .finished) :
    Acts client numWorkers pool started ⟨async,.calling,state⟩ ⟨pool,⟨async,.running,client.called state c.state⟩,[],()⟩
  | waited {async state} (all : ∀ b ∈ started, b.done = true) :
    Acts client numWorkers pool started ⟨async,.waiting,state⟩
      ⟨pool,⟨async,.running,client.waited state (Task.requests started)⟩,[],()⟩
  | counted {async state} :
    Acts client numWorkers pool started ⟨async,.processed,state⟩
      ⟨{ pool with activeWorkers := pool.activeWorkers - 1 },⟨async,.counted,state⟩,[],()⟩
  | released {async state} :
    Acts client numWorkers pool started ⟨async,.counted,state⟩
      ⟨{ pool with semaphore := pool.semaphore - 1 },⟨async,.released,state⟩,[],()⟩
  | signalled {async state} :
    Acts client numWorkers pool started ⟨async,.released,state⟩ ⟨pool,⟨async,.signalled,state⟩,[],()⟩
  | idle {async state} :
    Acts client numWorkers pool started ⟨async,.signalled,state⟩
      ⟨{ pool with idle := pool.idle + 1 },⟨async,.finished,state⟩,[],()⟩

theorem acts (acted : act client numWorkers pool t started () = some r) : Acts client numWorkers pool started t r := by
  obtain ⟨async,place,state⟩ := t
  cases place with
  | sent =>
    simp only [act] at acted
    split at acted
    next free =>
      cases acted
      exact .taken free
    next => contradiction
  | running =>
    simp only [act] at acted
    split at acted
    next => contradiction
    next quiet =>
      have quiet : ∀ b ∈ started, b.place ≠ .sent := by simpa using quiet
      split at acted
      next next_ =>
        cases acted
        exact .went quiet next_
      next next_ =>
        split at acted
        next room =>
          cases acted
          exact .shared quiet next_ room
        next full =>
          cases acted
          exact .called quiet next_ full
      next next_ =>
        cases acted
        exact .waits quiet next_
      next next_ =>
        cases acted
        exact .returned quiet next_
  | calling =>
    simp only [act] at acted
    split at acted
    next => contradiction
    next c rest =>
      split at acted
      next ended =>
        cases acted
        exact .back rfl ended
      next => contradiction
  | waiting =>
    simp only [act] at acted
    split at acted
    next all =>
      cases acted
      exact .waited (List.all_eq_true.mp all)
    next => contradiction
  | taken =>
    cases acted
    exact .begun
  | processed =>
    cases acted
    exact .counted
  | counted =>
    cases acted
    exact .released
  | released =>
    cases acted
    exact .signalled
  | signalled =>
    cases acted
    exact .idle
  | finished => contradiction

end Steps

end Vbe.Workshare
