import Vbe.Maintenance.Schedule
import Vbe.Library.Runs

/-! Snapshot garbage collection, writers and the dropping of deleted contents. They act on one
index, of which each may see an older state, and every label is one step of one of them. -/
namespace Vbe.Maintenance.SnapshotGC

def second : Int := 1000000000

structure Entry (κ : Type) where
  ContentID : κ
  TimestampSeconds : Int
  Deleted : Bool
  /-- The time at which the entry was added to the index. -/
  made : Int
deriving DecidableEq

namespace Entry
variable {κ : Type}

def Timestamp (e : Entry κ) : Int := e.TimestampSeconds * second

/-- The later entry wins; at equal times a live entry beats a deletion. -/
def greaterThan (a b : Entry κ) : Bool :=
  if a.TimestampSeconds ≠ b.TimestampSeconds then a.TimestampSeconds > b.TimestampSeconds else !a.Deleted && b.Deleted

/-- The entry that stands for the entries of one content, the latest of which comes first. -/
def resolve : List (Entry κ) → Option (Entry κ)
  | [] => none
  | e :: older =>
    match resolve older with
    | none => some e
    | some w => if e.greaterThan w then some e else some w

end Entry

/-- A snapshot manifest, with all contents that it refers to and the time from which it is seen. -/
structure Manifest (κ : Type) where
  contents : List κ
  published : Int
deriving DecidableEq

/-- How far a run has come: it looks for contents in use, then goes through the contents of its index. -/
inductive Phase (κ : Type)
  | starting
  | found (used : List κ)
  | iterating (used : List κ) (left : List (Entry κ)) (unused : Nat)

structure GC (κ : Type) where
  Start : Int
  gcDelete : Bool
  maintenanceStartTime : Int
  phase : Phase κ

structure World (κ : Type) where
  now : Int
  index : List (Entry κ)
  manifests : List (Manifest κ)
  /-- The contents that a writer has written or found, and when. -/
  writers : Nat → List (κ × Int)
  runs : Nat → Option (GC κ)
  schedule : Schedule
  /-- All runs that were ever reported. -/
  reported : List RunInfo

/-- A step that looks into the index is given the time of the state that it sees. -/
inductive Label (κ : Type)
  | passes (time : Nat)
  | WriteContent (k : Nat) (c : κ) (view : Int)
  | publish (k : Nat) (contents : List κ)
  | forget (i : Nat)
  | RewriteContent (c : κ) (view : Int)
  | begins (k : Nat) (gcDelete : Bool) (maintenanceStartTime : Int)
  | findInUseContentIDs (k : Nat)
  | IterateContents (k : Nat) (view : Int)
  | visit (k : Nat) (ci : Entry κ) (view : Int)
  | ends (k : Nat)
  | fails (k : Nat)
  | DropDeletedContents (runs : List RunInfo)

/-- What a repository is run with. Contents of manifests are left to the system. -/
structure Repository (κ : Type) where
  safety : SafetyParameters
  MinContentAgeSubjectToGC : Int
  system : κ → Bool

/-- How old a state of the index may be that is still seen: with the second to which times are
rounded down it makes up the extra margin. -/
def Repository.lag {κ : Type} (p : Repository κ) : Int := p.safety.DropContentFromIndexExtraMargin - second

namespace World
variable {κ : Type} [DecidableEq κ]

def empty (now : Int) : World κ := ⟨now,[],[],fun _ => [],fun _ => none,Schedule.empty,[]⟩

def info (w : World κ) (c : κ) : Option (Entry κ) := Entry.resolve (w.index.filter fun e => e.ContentID = c)

/-- The entry of a content in the state that the index had at some time. -/
def infoAt (w : World κ) (view : Int) (c : κ) : Option (Entry κ) :=
  Entry.resolve (w.index.filter fun e => e.ContentID = c && e.made ≤ view)

def sees (w : World κ) (p : Repository κ) (view : Int) : Bool := view ≤ w.now && w.now - view ≤ p.lag

def contentWriteTime (w : World κ) (previousUnixTimeSeconds : Int) : Int :=
  if w.now / second > previousUnixTimeSeconds then w.now / second else previousUnixTimeSeconds + 1

def add (w : World κ) (c : κ) (previous : Int) (deleted : Bool) : World κ :=
  { w with index := ⟨c,w.contentWriteTime previous,deleted,w.now⟩ :: w.index }

def goes (w : World κ) (k : Nat) (run : Option (GC κ)) : World κ := { w with runs := Function.update w.runs k run }

/-- The end of a run is reported. -/
def report (w : World κ) (k : Nat) (g : GC κ) (success : Bool) : World κ :=
  let info : RunInfo := ⟨g.Start,w.now,success⟩
  { w.goes k none with
    schedule := w.schedule.ReportRun .SnapshotGarbageCollection info
    reported := info :: w.reported }

def UndeleteContent (w : World κ) (c : κ) (view : Int) : Option (World κ) :=
  (w.infoAt view c).map fun bi => if bi.Deleted then w.add c bi.TimestampSeconds false else w

def DeleteContent (w : World κ) (c : κ) (view : Int) : Option (World κ) :=
  (w.infoAt view c).map fun bi => if bi.Deleted then w else w.add c bi.TimestampSeconds true

end World

section Steps
variable {κ : Type} [DecidableEq κ] (p : Repository κ)

/-- A content that is there is not written again. -/
def written (w : World κ) (c : κ) (view : Int) : World κ :=
  match w.infoAt view c with
  | some bi => if bi.Deleted then w.add c bi.TimestampSeconds false else w
  | none => w.add c (-1) false

def WriteContent (w : World κ) (k : Nat) (c : κ) (view : Int) : World κ :=
  { written w c view with writers := Function.update w.writers k ((c,w.now) :: w.writers k) }

/-- Writers publish what they have written or found less than a margin ago. -/
def mayPublish (w : World κ) (k : Nat) (c : κ) : Bool :=
  (w.writers k).any fun (c',time) => c' = c && w.now < time + p.safety.MarginBetweenSnapshotGC

/-- What a run does about a content that it comes to. -/
def visit (w : World κ) (g : GC κ) (used : List κ) (unused : Nat) (ci : Entry κ) (view : Int) : Option (World κ × Nat) :=
  if p.system ci.ContentID then some (w,unused)
  else if ci.ContentID ∈ used then
    if ci.Deleted then (w.UndeleteContent ci.ContentID view).map fun w => (w,unused) else some (w,unused)
  else if g.maintenanceStartTime - ci.Timestamp < p.MinContentAgeSubjectToGC then some (w,unused)
  else if g.gcDelete then (w.DeleteContent ci.ContentID view).map fun w => (w,unused + 1)
  else some (w,unused + 1)

/-- The contents that are dropped are deleted, and were so before a time. -/
def droppable (w : World κ) (dropDeletedBefore : Int) (c : κ) : Bool :=
  match w.info c with
  | some i => i.Deleted && i.Timestamp < dropDeletedBefore
  | none => false

def DropDeletedContents (w : World κ) (dropDeletedBefore : Int) : World κ :=
  if dropDeletedBefore = zeroTime then w
  else { w with index := w.index.filter fun e => !droppable w dropDeletedBefore e.ContentID }

def step (w : World κ) : Label κ → Option (World κ)
  | .passes time => some { w with now := w.now + time }
  | .WriteContent k c view => if w.sees p view then some (WriteContent w k c view) else none
  | .publish k contents =>
    if contents.all (mayPublish p w k) then some { w with manifests := ⟨contents,w.now⟩ :: w.manifests } else none
  | .forget i => some { w with manifests := w.manifests.eraseIdx i }
  | .RewriteContent c view =>
    if w.sees p view then (w.infoAt view c).map fun bi => w.add c bi.TimestampSeconds bi.Deleted else none
  | .begins k gcDelete maintenanceStartTime =>
    match w.runs k with
    | none => some (w.goes k (some ⟨w.now,gcDelete,maintenanceStartTime,.starting⟩))
    | some _ => none
  | .findInUseContentIDs k =>
    match w.runs k with
    | some ⟨Start,gcDelete,maintenanceStartTime,.starting⟩ =>
      some (w.goes k (some ⟨Start,gcDelete,maintenanceStartTime,.found (w.manifests.flatMap (·.contents))⟩))
    | _ => none
  | .IterateContents k view =>
    match w.runs k with
    | some ⟨Start,gcDelete,maintenanceStartTime,.found used⟩ =>
      if w.sees p view then
        let left := w.index.filter fun e => w.infoAt view e.ContentID = some e
        some (w.goes k (some ⟨Start,gcDelete,maintenanceStartTime,.iterating used left 0⟩))
      else none
    | _ => none
  | .visit k ci view =>
    match w.runs k with
    | some ⟨Start,gcDelete,maintenanceStartTime,.iterating used left unused⟩ =>
      if w.sees p view && ci ∈ left then
        (visit p w ⟨Start,gcDelete,maintenanceStartTime,.iterating used left unused⟩ used unused ci view).map fun (w,unused) =>
          w.goes k (some ⟨Start,gcDelete,maintenanceStartTime,.iterating used (left.erase ci) unused⟩)
      else none
    | _ => none
  | .ends k =>
    match w.runs k with
    | some ⟨Start,gcDelete,maintenanceStartTime,.iterating used [] unused⟩ =>
      if gcDelete || unused = 0 then
        some (w.report k ⟨Start,gcDelete,maintenanceStartTime,.iterating used [] unused⟩ true)
      else none
    | _ => none
  | .fails k => (w.runs k).map fun g => w.report k g false
  | .DropDeletedContents runs =>
    if ∀ r ∈ runs, r ∈ w.reported then some (DropDeletedContents w (findSafeDropTime runs p.safety)) else none

end Steps

end Vbe.Maintenance.SnapshotGC
