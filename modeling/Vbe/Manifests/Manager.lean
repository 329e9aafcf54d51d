import Vbe.Manifests.CommittedManager
import Vbe.Library.Runs
import Mathlib.Data.List.Sort

/-! The manager of manifests. Entries that were put or deleted are pending until they are flushed. -/
namespace Vbe.Manifests
open Vbe.Index (Bytes)
open Vbe.Library

def TypeLabelKey : String := "type"

structure EntryMetadata where
  ID : String
  Length : Nat
  Labels : Labels
  ModTime : Time

def cloneEntryMetadata (e : manifestEntry) : EntryMetadata := ⟨e.ID,e.Content.length,e.Labels,e.ModTime⟩

/-- Whether all entries of `b` are found in `a`. -/
def matchesLabels (a b : Labels) : Bool := b.values.all fun l => a.get? l.1 = some l

def findEntriesMatchingLabels (m : Entries) (labels : Labels) : Entries := m.filter fun e => matchesLabels e.Labels labels

structure Manager where
  pendingEntries : Entries
  committed : committedManifestManager

def autoCompactionContentCountDefault : Nat := 16

def NewManager (AutoCompactionThreshold : Nat) : Manager where
  pendingEntries := .empty
  committed := newCommittedManager (if AutoCompactionThreshold = 0 then autoCompactionContentCountDefault else AutoCompactionThreshold)

namespace Manager

/-- `random` is what the source of randomness returns, in hexadecimal, and `payload` what the payload is marshalled to. -/
def Put (m : Manager) (labels : Labels) (random : Option String) (payload : Option Bytes) (now : Time) : Manager × Except Error String :=
  match labels.get? TypeLabelKey with
  | none => (m,.error .typeLabelRequired)
  | some label =>
    if label.2 = "" then (m,.error .typeLabelRequired)
    else match random with
      | none => (m,.error .randomness)
      | some ID => match payload with
        | none => (m,.error .marshal)
        | some b => ({ m with pendingEntries := m.pendingEntries.set ⟨ID,labels,now,false,b⟩ },.ok ID)

/-- A deletion counts as no entry. -/
def foundOrDeleted : Option manifestEntry → Except Error manifestEntry
  | none => .error .notFound
  | some e => if e.Deleted then .error .notFound else .ok e

def getPendingOrCommitted (m : Manager) (id : String) : Call (Manager × Except Error manifestEntry) :=
  match m.pendingEntries.get? id with
  | some e => return (m,foundOrDeleted (some e))
  | none => do
    let (committed,result) ← m.committed.ensureInitializedLocked
    let m := { m with committed := committed }
    match result with
    | .error e => return (m,.error e)
    | .ok () => return (m,foundOrDeleted (committed.committedEntries.get? id))

def GetMetadata (m : Manager) (id : String) : Call (Manager × Except Error EntryMetadata) := do
  let (m,e) ← m.getPendingOrCommitted id
  return (m,e.map cloneEntryMetadata)

/-- `unmarshal` reads the content into what the caller provides. -/
def Get {α : Type} (m : Manager) (unmarshal : Bytes → Option α) (id : String) : Call (Manager × Except Error (α × EntryMetadata)) := do
  let (m,e) ← m.getPendingOrCommitted id
  return (m,match e with
    | .error e => .error e
    | .ok e => match unmarshal e.Content with
      | none => .error .unmarshal
      | some a => .ok (a,cloneEntryMetadata e))

/-- Entries of the same time, which `sort.Slice` leaves in any order, stay as they were found. -/
def Find (m : Manager) (labels : Labels) : Call (Manager × Except Error (List EntryMetadata)) := do
  let (committed,result) ← m.committed.ensureInitializedLocked
  let m := { m with committed := committed }
  match result with
  | .error e => return (m,.error e)
  | .ok () =>
    let committedMatches := findEntriesMatchingLabels committed.committedEntries labels
    let found := (findEntriesMatchingLabels m.pendingEntries labels).values.map cloneEntryMetadata ++
      (committedMatches.values.filter fun e => (m.pendingEntries.get? e.ID).isNone).map cloneEntryMetadata
    return (m,.ok (found.mergeSort fun a b => a.ModTime ≤ b.ModTime))

def Flush (m : Manager) : Call (Manager × Except Error Unit) := do
  let (committed,result) ← m.committed.commitEntries m.pendingEntries
  match result with
  | .error e => return ({ m with committed := committed },.error e)
  | .ok _ => return ({ m with committed := committed, pendingEntries := .empty },.ok ())

def Delete (m : Manager) (id : String) (now : Time) : Call (Manager × Except Error Unit) := do
  let (committed,result) ← m.committed.ensureInitializedLocked
  let m := { m with committed := committed }
  match result with
  | .error e => return (m,.error e)
  | .ok () =>
    if (m.pendingEntries.get? id).isNone ∧ (committed.committedEntries.get? id).isNone then return (m,.ok ())
    else return ({ m with pendingEntries := m.pendingEntries.set ⟨id,.empty,now,true,[]⟩ },.ok ())

def Compact (m : Manager) : Call (Manager × Except Error Unit) := do
  let (committed,result) ← m.committed.compactLocked
  return ({ m with committed := committed },result)

end Manager

/-- What a program ends with if its questions are answered so, and it does not stop for want of an answer. -/
def Replied {α : Type} (p : Call α) (replies : List Reply) : Option α :=
  match (p.steps (fun (_ : Unit) _ (r : Reply) => ((),r)) replies ()).2 with
  | some (.ok a) => some a
  | _ => none

/-- The calls of a manager, with what they are given and how their questions are answered. -/
inductive Label
  | Put (labels : Labels) (random : Option String) (payload : Option Bytes) (now : Time)
  | GetMetadata (id : String) (replies : List Reply)
  | Find (labels : Labels) (replies : List Reply)
  | Delete (id : String) (now : Time) (replies : List Reply)
  | Flush (replies : List Reply)
  | Compact (replies : List Reply)

/-- The manager after a call. -/
def Manager.step (m : Manager) : Label → Option Manager
  | .Put labels random payload now => some (m.Put labels random payload now).1
  | .GetMetadata id replies => (Replied (m.GetMetadata id) replies).map Prod.fst
  | .Find labels replies => (Replied (m.Find labels) replies).map Prod.fst
  | .Delete id now replies => (Replied (m.Delete id now) replies).map Prod.fst
  | .Flush replies => (Replied m.Flush replies).map Prod.fst
  | .Compact replies => (Replied m.Compact replies).map Prod.fst

end Vbe.Manifests
