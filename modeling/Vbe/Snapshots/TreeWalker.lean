import Vbe.Library.Families
import Vbe.Objects.Objectid

/-! The walk over snapshot trees that calls back once for each object. Goroutines take turns: where one waits, calls back, reads
from a directory or looks at what all share, others may have acted before. -/
namespace Vbe.Snapshots.Walking
open Vbe.Index (Bytes)
open Vbe.Objects (ID EmptyID)
open Vbe.Library

section Model

/-- An entry of a snapshot tree: a directory lists others. -/
inductive Entry
  | leaf (name : String) (oid : ID)
  | directory (name : String) (oid : ID) (entries : List Entry)

namespace Entry

def name : Entry → String
  | leaf name _ => name
  | directory name _ _ => name

def oid : Entry → ID
  | leaf _ oid => oid
  | directory _ oid _ => oid

def entries : Entry → List Entry
  | leaf .. => []
  | directory _ _ entries => entries

end Entry

structure TreeWalkerOptions where
  Parallelism : Int
  MaxErrors : Int

def walkersPerCPU : Nat := 4

/-- The options with their defaults. -/
def NewTreeWalker (numCPU : Nat) (options : TreeWalkerOptions) : TreeWalkerOptions where
  Parallelism := if options.Parallelism ≤ 0 then numCPU * walkersPerCPU else options.Parallelism
  MaxErrors := if options.MaxErrors = 0 then 1 else options.MaxErrors

/-- As many workers, and places in the semaphore, as the pool of a walker has. -/
def TreeWalkerOptions.numWorkers (options : TreeWalkerOptions) : Nat := (options.Parallelism - 1).toNat

variable {ε : Type}

/-- What all goroutines share: the texts of the identifiers put in the set, the places taken in the semaphore, and the errors. -/
structure TreeWalker (ε : Type) where
  enqueued : List Bytes
  semaphore : Nat
  numErrors : Nat
  errors : List ε

inductive Outcome (ε : Type)
  | nil
  | noObjectID
  | single (err : ε)
  | several (n : Nat)
  | panic

def Outcome.isError : Outcome ε → Bool
  | .nil | .panic => false
  | _ => true

namespace TreeWalker

def new : TreeWalker ε := ⟨[],0,0,[]⟩

def ReportError (options : TreeWalkerOptions) (w : TreeWalker ε) (err : ε) : TreeWalker ε :=
  { w with
    errors := if w.errors.length < options.MaxErrors ∨ options.MaxErrors ≤ 0 ∧ w.errors.length = 0 then w.errors ++ [err] else w.errors
    numErrors := w.numErrors + 1 }

def Err (w : TreeWalker ε) : Outcome ε :=
  match w.numErrors with
  | 0 => .nil
  | 1 =>
    match w.errors with
    | [] => .panic
    | err :: _ => .single err
  | n => .several n

def TooManyErrors (options : TreeWalkerOptions) (w : TreeWalker ε) : Bool :=
  if options.MaxErrors ≤ 0 then false else options.MaxErrors ≤ w.numErrors

/-- Whether the entry is in the set, and the walker with the entry put in. -/
def alreadyProcessed (w : TreeWalker ε) (e : Entry) : Bool × TreeWalker ε :=
  if e.oid.String ∈ w.enqueued then (true,w) else (false,{ w with enqueued := w.enqueued ++ [e.oid.String] })

/-- A worker gives its place in the semaphore back. -/
def release (w : TreeWalker ε) (shared : Bool) : TreeWalker ε :=
  if shared then { w with semaphore := w.semaphore - 1 } else w

end TreeWalker

/-- Where a goroutine is in `Process`, `processEntry` or `processDirEntry`. -/
inductive Place (ε : Type)
  | process (e : Entry) (entryPath : String)
  | processing
  | returned (outcome : Outcome ε)
  | processEntry (e : Entry) (entryPath : String)
  | processDirEntry (entries : List Entry) (entryPath : String)
  | next (left : List Entry) (entryPath : String)
  | check (ent : Entry) (left : List Entry) (entryPath : String)
  | put (ent : Entry) (left : List Entry) (entryPath : String)
  | share (ent : Entry) (left : List Entry) (entryPath : String)
  | child (left : List Entry) (entryPath : String)
  | close
  | leave
  | ended

/-- A call of `Process` or of `processEntry`, which may be shared with a worker of the pool. -/
structure Task (ε : Type) where
  shared : Bool
  place : Place ε

def Task.done (t : Task ε) : Bool :=
  match t.place with
  | .returned _ | .ended => true
  | _ => false

inductive Event (ε : Type)
  | silent
  | callback (e : Entry) (entryPath : String) (err : Option ε)
  | unread (err : ε)

variable (options : TreeWalkerOptions) (Join : String → String → String)

/-- What a goroutine does next, where the callback or the read from the directory may fail. -/
def act : Family.Act (TreeWalker ε) (Task ε) (Option ε) (Event ε) := fun w t started failing =>
  let go (w : TreeWalker ε) (place : Place ε) (new : List (Task ε)) (event : Event ε) := some ⟨w,{ t with place := place },new,event⟩
  match t.place with
  | .process e entryPath =>
    if e.oid = EmptyID then go w (.returned .noObjectID) [] .silent
    else
      match w.alreadyProcessed e with
      | (true,w) => go w (.returned .nil) [] .silent
      | (false,w) => go w .processing [⟨false,.processEntry e entryPath⟩] .silent
  | .processing => if started.all Task.done then go w (.returned w.Err) [] .silent else none
  | .processEntry e entryPath =>
    match failing, e with
    | some err, _ => go (w.ReportError options err) .leave [] (.callback e entryPath failing)
    | none, .directory _ _ entries => go w (.processDirEntry entries entryPath) [] (.callback e entryPath none)
    | none, .leaf _ _ => go w .leave [] (.callback e entryPath none)
  | .processDirEntry entries entryPath =>
    match failing with
    | some err => go (w.ReportError options err) .close [] (.unread err)
    | none => go w (.next entries entryPath) [] .silent
  | .next left entryPath =>
    match failing, left with
    | some err, _ => go (w.ReportError options err) .close [] (.unread err)
    | none, [] => go w .close [] .silent
    | none, ent :: left => go w (.check ent left entryPath) [] .silent
  | .check ent left entryPath =>
    if w.TooManyErrors options then go w .close [] .silent else go w (.put ent left entryPath) [] .silent
  | .put ent left entryPath =>
    match w.alreadyProcessed ent with
    | (true,w) => go w (.next left entryPath) [] .silent
    | (false,w) => go w (.share ent left entryPath) [] .silent
  | .share ent left entryPath =>
    let childPath := Join entryPath ent.name
    if w.semaphore < options.numWorkers then
      go { w with semaphore := w.semaphore + 1 } (.next left entryPath) [⟨true,.processEntry ent childPath⟩] .silent
    else go w (.child left entryPath) [⟨false,.processEntry ent childPath⟩] .silent
  | .child left entryPath =>
    if started.all fun t => t.done || t.shared then go w (.next left entryPath) [] .silent else none
  | .close => if started.all Task.done then go w .leave [] .silent else none
  | .leave => go (w.release t.shared) .ended [] .silent
  | .returned _ => none
  | .ended => none

/-- Some calls of `Process`, each with an entry and its path. -/
def start (roots : List (Entry × String)) : Library.Calls (TreeWalker ε) (Task ε) (Event ε) :=
  .of .new (roots.map fun r => ⟨false,.process r.1 r.2⟩)

/-- What a call has returned. -/
def outcome (call : Call (Task ε) (Event ε)) : Option (Outcome ε) :=
  match call.tasks with
  | .cons ⟨_,.returned outcome⟩ _ _ => some outcome
  | _ => none

def Event.failed : Event ε → Bool
  | callback _ _ (some _) | unread _ => true
  | _ => false

def Event.visited? : Event ε → Option ID
  | callback e _ _ => some e.oid
  | _ => none

/-- The objects the callback was invoked for. -/
def visited (c : Library.Calls (TreeWalker ε) (Task ε) (Event ε)) : List ID := c.events.filterMap Event.visited?

end Model

section Trees

/-- The entries of a tree. -/
inductive Within (root : Entry) : Entry → Prop
  | root : Within root root
  | child {e c} (inner : Within root e) (listed : c ∈ e.entries) : Within root c

def Reachable (roots : List (Entry × String)) (e : Entry) : Prop := ∃ r ∈ roots, Within r.1 e

/-- Entries with one identifier have the same contents, which list the same identifiers. -/
def Shares (roots : List (Entry × String)) : Prop :=
  ∀ e f, Reachable roots e → Reachable roots f → e.oid = f.oid → ∀ c ∈ e.entries, ∃ d ∈ f.entries, d.oid = c.oid

/-- Every entry has the identifier of an object. -/
def Identified (roots : List (Entry × String)) : Prop := ∀ e, Reachable roots e → e.oid.cid.Valid

end Trees

end Vbe.Snapshots.Walking
