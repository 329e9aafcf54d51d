import Vbe.Library.Keyed
import Vbe.Parallelwork.Progress
import Vbe.Sharded.Sharding

/-! Blobs that are put in a sharded storage, deleted from it and listed. -/
namespace Vbe.Sharded
open Vbe.Library Vbe.Library.Paths Vbe.Parallelwork

/-- A file that an implementation has stored, under the names that lead to it. -/
structure File where
  location : List Path
  Size : Int
  ModTime : Int

abbrev Files := Keyed File.location

structure Metadata where
  BlobID : ID
  Length : Int
  Timestamp : Int
deriving DecidableEq

/-- A flat store of blobs. -/
abbrev Blobs := Keyed Metadata.BlobID

inductive Call
  | PutBlob (blobID : ID) (length timestamp : Int)
  | DeleteBlob (blobID : ID)

def Call.blobID : Call → ID
  | PutBlob blobID _ _ => blobID
  | DeleteBlob blobID => blobID

def PutBlobInPath (files : Files) (filePath : Path) (size modTime : Int) : Files := files.set ⟨names filePath,size,modTime⟩

def DeleteBlobInPath (files : Files) (filePath : Path) : Files := files.erase (names filePath)

namespace Storage

def PutBlob (s : Storage) (files : Files) (blobID : ID) (length timestamp : Int) : Files :=
  PutBlobInPath files (s.GetShardedPathAndFilePath blobID).2 length timestamp

def DeleteBlob (s : Storage) (files : Files) (blobID : ID) : Files :=
  DeleteBlobInPath files (s.GetShardedPathAndFilePath blobID).2

/-- A call that succeeds. -/
def call (s : Storage) (files : Files) : Call → Files
  | .PutBlob blobID length timestamp => s.PutBlob files blobID length timestamp
  | .DeleteBlob blobID => s.DeleteBlob files blobID

/-- The files of a storage without blobs, which may include its parameters. -/
def opened (s : Storage) (parametersFile : Option (Int × Int)) : Files :=
  match parametersFile with
  | none => Keyed.empty
  | some (size,modTime) => PutBlobInPath Keyed.empty (Join s.RootPath ParametersFile) size modTime

/-- The file of a blob. -/
def file (s : Storage) (b : Metadata) : File := ⟨s.location b.BlobID,b.Length,b.Timestamp⟩

end Storage

/-- The same call to a flat store. -/
def Blobs.call (blobs : Blobs) : Call → Blobs
  | .PutBlob blobID length timestamp => blobs.set ⟨blobID,length,timestamp⟩
  | .DeleteBlob blobID => blobs.erase blobID

/-- `os.FileInfo`. -/
structure FileInfo where
  Name : Path
  IsDir : Bool
  Size : Int
  ModTime : Int

/-- The arguments of `walkDir`. -/
structure Item where
  directory : Path
  currentPrefix : ID

/-- A directory is to be read, or some of its entries are to be looked at. -/
inductive Walk
  | walkDir (i : Item)
  | entries (i : Item) (rest : List FileInfo)

/-- The channels between the workers and the listing. -/
structure Channels where
  result : List Metadata
  finished : Bool

/-- A listing with its queue, the blobs that the callback has been invoked for, and whether it has returned without an error. -/
structure Listing where
  queue : Queue Item Walk Channels
  reported : List Metadata
  outcome : Option Bool

/-- A worker acts, and may take the other of two channels that are ready; the callback is invoked; or the workers have ended. -/
inductive Label
  | worker (k : Nat) (cancelled other : Bool)
  | receive
  | wait

def resultSize : Nat := 128

section Walking
variable (pre : ID) (ReadDir : Path → Option (List FileInfo))

/-- Whether something below a directory may be listed. -/
def mayMatch (newPrefix : ID) : Bool :=
  if pre.length > newPrefix.length then newPrefix.isPrefixOf pre else pre.isPrefixOf newPrefix

def walk (c : Channels) : Walk → Bool → Option (Result Item Walk Channels)
  | .walkDir i,_ =>
    if c.finished then some ⟨c,.inr true,[],[]⟩
    else
      match ReadDir i.directory with
      | none => some ⟨c,.inr false,[],[]⟩
      | some entries => some ⟨c,.inl (.entries i entries),[],[]⟩
  | .entries _ [],_ => some ⟨c,.inr true,[],[]⟩
  | .entries i (e :: rest),other =>
    let next := Sum.inl (Walk.entries i rest)
    if e.IsDir then
      let newPrefix := i.currentPrefix ++ e.Name
      some ⟨c,next,if mayMatch pre newPrefix then [⟨i.directory ++ slash :: e.Name,newPrefix⟩] else [],[]⟩
    else
      match getBlobIDFromFileName (i.currentPrefix ++ e.Name) with
      | none => some ⟨c,next,[],[]⟩
      | some fullID =>
        if !pre.isPrefixOf fullID then some ⟨c,next,[],[]⟩
        else if c.finished && other then some ⟨c,next,[],[]⟩
        else if c.result.length < resultSize then
          some ⟨{ c with result := c.result ++ [⟨fullID,e.Size,e.ModTime⟩] },next,[],[]⟩
        else none

end Walking

namespace Listing
variable (pre : ID) (ReadDir : Path → Option (List FileInfo)) (callback : Metadata → Bool)

/-- No workers are started where their number is negative. -/
def start (s : Storage) : Listing where
  queue := Queue.Process (Queue.EnqueueFront [] ⟨s.RootPath,[]⟩) ⟨[],false⟩
    (if s.ListParallelism = 0 then 1 else s.ListParallelism).toNat
  reported := []
  outcome := none

def stopped : Worker Walk → Bool
  | .stopped _ => true
  | _ => false

def fine : Worker Walk → Bool
  | .stopped ok => ok
  | _ => false

def step (t : Listing) : Label → Option Listing
  | .worker k cancelled other =>
    (t.queue.step .walkDir (walk pre ReadDir) (k,cancelled,other)).map fun queue => { t with queue := queue }
  | .receive =>
    match t.outcome,t.queue.shared.result with
    | none,b :: rest =>
      some {
        queue := { t.queue with shared := ⟨rest,!callback b⟩ }
        reported := t.reported ++ [b]
        outcome := if callback b then none else some false }
    | _,_ => none
  | .wait =>
    if t.outcome = none ∧ t.queue.shared.result = [] ∧ t.queue.workers.all stopped then some { t with
      queue := { t.queue with shared := ⟨[],true⟩ }
      outcome := some (t.queue.workers.all fine) }
    else none

end Listing

def Label.cancelled : Label → Bool
  | .worker _ cancelled _ => cancelled
  | _ => false

/-- The blobs that a listing is to report. -/
def Blobs.listed (blobs : Blobs) (pre : ID) : List Metadata := blobs.values.filter fun b => pre.isPrefixOf b.BlobID

section Keeping
variable {s : Storage} {initial files : Files} {blobs : Blobs}

/-- The files are those of the blobs, besides those that have been there. -/
structure Keeps (s : Storage) (initial files : Files) (blobs : Blobs) : Prop where
  clear : ∀ b ∈ blobs.values, Clear b.BlobID
  files : ∀ f, f ∈ files.values ↔ f ∈ initial.values ∨ ∃ b ∈ blobs.values, f = s.file b

/-- The file of the parameters is in the root. -/
theorem mem_opened {parametersFile : Option (Int × Int)} {f : File} (member : f ∈ (s.opened parametersFile).values) :
    f.location = names s.RootPath ++ [ParametersFile] := by
  have plain : Plain ParametersFile := ⟨by decide,by decide,by decide,by decide⟩
  cases parametersFile with
  | none => exact absurd member List.not_mem_nil
  | some file =>
    rcases Keyed.mem_set_iff.mp member with rfl | ⟨before,_⟩
    · exact names_Join plain _
    · exact absurd before List.not_mem_nil

/-- No blob is kept where the parameters are. -/
theorem location_ne_opened {parametersFile : Option (Int × Int)} {id : ID} (clear : Clear id) {f : File}
    (member : f ∈ (s.opened parametersFile).values) : f.location ≠ s.location id := by
  intro same
  obtain ⟨parts,rest,_,here⟩ := location_split s clear
  rw [mem_opened member,here] at same
  have last := congrArg List.getLast? same
  rw [List.getLast?_concat,List.getLast?_concat,makeFileName,CompleteBlobSuffix,ParametersFile] at last
  have end_ := congrArg List.getLast? (Option.some.inj last)
  simp at end_

theorem Keeps.call (keeps : Keeps s initial files blobs) (apart : ∀ id, Clear id → ∀ f ∈ initial.values, f.location ≠ s.location id)
    {c : Call} (clear : Clear c.blobID) :
    Keeps s initial (s.call files c) (blobs.call c) := by
  have other (b : Metadata) (member : b ∈ blobs.values) : b.BlobID ≠ c.blobID ↔ s.location b.BlobID ≠ s.location c.blobID :=
    ⟨fun differ same => differ (location_injective s (keeps.clear b member) clear same),fun differ same => differ (by rw [same])⟩
  cases c with
  | PutBlob id length timestamp =>
    refine ⟨fun b member => ?_,fun f => ?_⟩
    · rcases Keyed.mem_set_iff.mp member with rfl | ⟨before,_⟩
      · exact clear
      · exact keeps.clear b before
    · rw [Storage.call,Storage.PutBlob,PutBlobInPath,Keyed.mem_set_iff,keeps.files]
      constructor
      · rintro (rfl | ⟨old | ⟨b,member,rfl⟩,differ⟩)
        · exact .inr ⟨⟨id,length,timestamp⟩,Keyed.mem_set_iff.mpr (.inl rfl),rfl⟩
        · exact .inl old
        · exact .inr ⟨b,Keyed.mem_set_iff.mpr (.inr ⟨member,(other b member).mpr differ⟩),rfl⟩
      · rintro (old | ⟨b,member,rfl⟩)
        · exact .inr ⟨.inl old,apart id clear f old⟩
        · rcases Keyed.mem_set_iff.mp member with rfl | ⟨before,differ⟩
          · exact .inl rfl
          · exact .inr ⟨.inr ⟨b,before,rfl⟩,(other b before).mp differ⟩
  | DeleteBlob id =>
    refine ⟨fun b member => keeps.clear b (Keyed.mem_erase_iff.mp member).1,fun f => ?_⟩
    rw [Storage.call,Storage.DeleteBlob,DeleteBlobInPath,Keyed.mem_erase_iff,keeps.files]
    constructor
    · rintro ⟨old | ⟨b,member,rfl⟩,differ⟩
      · exact .inl old
      · exact .inr ⟨b,Keyed.mem_erase_iff.mpr ⟨member,(other b member).mpr differ⟩,rfl⟩
    · rintro (old | ⟨b,member,rfl⟩)
      · exact ⟨.inl old,apart id clear f old⟩
      · obtain ⟨before,differ⟩ := Keyed.mem_erase_iff.mp member
        exact ⟨.inr ⟨b,before,rfl⟩,(other b before).mp differ⟩

/-- After any calls the files are those of the blobs that a flat store has. -/
theorem keeps_calls (s : Storage) (parametersFile : Option (Int × Int)) {calls : List Call} (clear : ∀ c ∈ calls, Clear c.blobID) :
    Keeps s (s.opened parametersFile) (calls.foldl s.call (s.opened parametersFile)) (calls.foldl Blobs.call Keyed.empty) := by
  have kept (calls : List Call) (clear : ∀ c ∈ calls, Clear c.blobID) (files : Files) (blobs : Blobs)
      (keeps : Keeps s (s.opened parametersFile) files blobs) :
      Keeps s (s.opened parametersFile) (calls.foldl s.call files) (calls.foldl Blobs.call blobs) := by
    induction calls generalizing files blobs with
    | nil => exact keeps
    | cons c calls ih =>
      refine ih (fun c member => clear c (List.mem_cons_of_mem _ member)) _ _ ?_
      exact keeps.call (fun id clear f member => location_ne_opened clear member) (clear c List.mem_cons_self)
  refine kept calls clear _ _ ⟨fun b member => absurd member List.not_mem_nil,fun f => ⟨.inl,?_⟩⟩
  rintro (old | ⟨b,absent,_⟩)
  · exact old
  · exact absurd absent List.not_mem_nil

end Keeping

end Vbe.Sharded
