import Vbe.Library.Crews
import Vbe.Objects.Panics
import Vbe.Snapshots.DirManifestBuilder

/-! Upload of a file, in one part or in parts that several workers upload at the same time. -/
namespace Vbe.Snapshots
open Vbe.Index (Bytes)
open Vbe.Library Vbe.Objects Vbe.Splitter

/-- A file and its bytes, which do not change; `DirEntryOrNil` is what a file says that may be a placeholder. -/
structure File where
  Name : Bytes
  bytes : Bytes
  fits : bytes.length < 2 ^ 63
  Permissions : Int
  ModTime : UTCTimestamp
  UserID : Nat
  GroupID : Nat
  DirEntryOrNil : Option (Except Unit (Option DirEntry))

def File.Size (file : File) : Int := file.bytes.length

section Questions

inductive ReadError
  | EOF
  | other
deriving DecidableEq

/-- What may happen to a writer between two of its calls. -/
inductive WriterEvent
  | complete (k : Nat)
  | Checkpoint (order : List Nat)

inductive UploadOp
  | Open
  | Seek (offset : Int)
  | Read (position size : Nat)
  | VerifyObject (objectID : Objects.ID)
  | IsCanceled
  /-- What has happened to the writer. -/
  | meanwhile
  /-- In which order the writes in the background finish. -/
  | waiting
  /-- Which of the workers goes on. -/
  | turn
  | content (op : ContentOp)

inductive UploadReply
  | result (failed : Bool)
  | read (bytes : Bytes) (err : Option ReadError)
  | canceled (canceled : Bool)
  | events (events : List WriterEvent)
  | order (order : List Nat)
  | turn (turn : Turn)
  | content (reply : ContentReply)

inductive UploadError
  | readPlaceholder
  | invalidPlaceholder
  | openFile
  | seek
  | canceled
  | read
  | write (e : WriteError)
  | result (e : WriteError)
  | parts
  | concatenate (e : WriteError)

inductive Crash
  /-- A loop or recursion had not ended, or a question was not answered. -/
  | unfinished
  | panicked
deriving DecidableEq

abbrev Upload := Query UploadOp UploadReply Crash

def UploadReply.turn? : UploadReply → Option Turn
  | .turn t => some t
  | _ => none

def failed {α : Type} : WriteError → Upload (Except WriteError α)
  | .unfinished | .appending .unfinished => .fail .unfinished
  | .panicked | .appending .panicked => .fail .panicked
  | e => return .error e

/-- What writers and `Concatenate` do, in the midst of an upload. -/
def repository {α : Type} : Action α → Upload (Except WriteError α)
  | .answer a => return .ok a
  | .fail e => failed e
  | .ask op next => .ask (.content op) fun
    | .content reply => repository (next reply)
    | _ => .fail .unfinished

end Questions

def newDirEntry (md : File) (fname : Bytes) (oid : Objects.ID) : DirEntry where
  Name := fname
  «Type» := .EntryTypeFile
  Permissions := md.Permissions
  FileSize := Int64.ofInt md.Size
  ModTime := md.ModTime
  UserID := md.UserID
  GroupID := md.GroupID
  ObjectID := oid
  DirSummary := none

/-- `iocopy.BufSize` -/
def BufSize : Nat := 65536

section Copies
variable (newDefaultSplitter : Factory) {factory : Factory}

def meanwhile (fuel : Nat) (w : ObjectWriter factory) : List WriterEvent → Upload (ObjectWriter factory)
  | [] => return w
  | .complete k :: events => do
    match ← repository (w.complete k) with
    | .ok w => meanwhile fuel w events
    | .error _ => meanwhile fuel w events
  | .Checkpoint order :: events => do
    match ← repository (w.checkpointLocked (indexObject newDefaultSplitter fuel) order) with
    | .ok (w,_) => meanwhile fuel w events
    | .error _ => meanwhile fuel w events

/-- A read of the file at the position that its handle has, through a `LimitReader` or not. -/
def readAt (position size : Nat) : Option Nat → Upload (Bytes × Option ReadError)
  | some 0 => return ([],some .EOF)
  | limit => .ask (.Read position (min size (limit.getD size))) fun
    | .read bytes err => return (bytes,err)
    | _ => .fail .unfinished

def writeRead (dst : ObjectWriter factory) (bytes : Bytes) : Upload (Except WriteError (ObjectWriter factory × Except WriteError Unit)) :=
  if bytes = [] then return .ok (dst,.ok ()) else repository (dst.Write bytes)

def copyWithProgress : Nat → ObjectWriter factory → (position : Nat) → (limit : Option Nat) → (written : Int) →
    Upload (Except UploadError (ObjectWriter factory × Int))
  | 0, _, _, _, _ => .fail .unfinished
  | fuel + 1, dst, position, limit, written =>
    .ask .IsCanceled fun
    | .canceled true => return .error .canceled
    | .canceled false => do
      let (bytes,readErr) ← readAt position BufSize limit
      .ask .meanwhile fun
      | .events events => do
        let dst ← meanwhile newDefaultSplitter fuel dst events
        match ← writeRead dst bytes with
        | .error e => return .error (.write e)
        | .ok (_,.error e) => return .error (.write e)
        | .ok (dst,.ok ()) =>
          match readErr with
          | some .EOF => return .ok (dst,written + bytes.length)
          | some .other => return .error .read
          | none => copyWithProgress fuel dst (position + bytes.length) (limit.map (· - bytes.length)) (written + bytes.length)
      | _ => .fail .unfinished
    | _ => .fail .unfinished

end Copies

section Uploads
variable (formats : Formats) (newDefaultSplitter : Factory) {factory : Factory} (compressor : Option Compressor)
  (splitters : Nat → factory.State) (maxAlloc fuel : Nat) (file : File)

def waiting : Upload (List Nat) :=
  .ask .waiting fun
  | .order order => return order
  | _ => .fail .unfinished

def seekStart (offset : Int) : Upload Bool :=
  if offset = 0 then return true
  else .ask (.Seek offset) fun
    | .result failed => return !failed
    | _ => .fail .unfinished

/-- The upload of one part, with the splitter that its writer has got from the pool. -/
def uploadFileData (splitter : factory.State) (fname : Bytes) (offset length : Int) : Upload (Except UploadError DirEntry) :=
  .ask .Open fun
  | .result false => do
    if ← seekStart offset then
      let w := newWriter splitter compressor [] true
      match ← copyWithProgress newDefaultSplitter fuel w offset.toNat (if length ≥ 0 then some length.toNat else none) 0 with
      | .error e => return .error e
      | .ok (writer,written) => .ask .meanwhile fun
        | .events events => do
          let writer ← meanwhile newDefaultSplitter fuel writer events
          let order ← waiting
          match ← repository (writer.Result (indexObject newDefaultSplitter fuel) order) with
          | .error e => return .error (.result e)
          | .ok (_,.error e) => return .error (.result e)
          | .ok (_,.ok r) => return .ok { newDirEntry file fname r with FileSize := Int64.ofInt written }
        | _ => .fail .unfinished
    else return .error .seek
  | _ => return .error .openFile

def concatenateParts (name : Bytes) (parts : List DirEntry) : Upload (Except UploadError DirEntry) := do
  let totalSize := (parts.map DirEntry.FileSize).sum
  match ← repository (Concatenate formats newDefaultSplitter fuel (parts.map DirEntry.ObjectID)) with
  | .error e => return .error (.concatenate e)
  | .ok resultObject =>
    match parts with
    | [] => .fail .panicked
    | de :: _ => return .ok { de with Name := name, FileSize := totalSize, ObjectID := resultObject }

/-- `make` of a slice panics if it does not fit in the address space. -/
def makeSlice (elementSize length : Nat) : Upload Unit :=
  if length * elementSize > maxAlloc then .fail .panicked else return

/-- The upload in parts, the last of which takes what is left; `uuid.NewString` gives them names that are not kept. -/
def uploadInParts (NewString : Nat → Bytes) (chunkSize : Int) : Upload (Except UploadError DirEntry) := do
  let fullParts := (file.Size / chunkSize).toNat
  makeSlice maxAlloc 8 (fullParts + 1)
  makeSlice maxAlloc 16 (fullParts + 1)
  let uploads := (List.range (fullParts + 1)).map fun i =>
    uploadFileData newDefaultSplitter compressor fuel file (splitters i) (NewString i) (i * chunkSize)
      (if i = fullParts then -1 else chunkSize)
  let results ← Crew.run (fun _ => false) .unfinished .turn UploadReply.turn? fuel (Crew.of uploads)
  match (results.map Prod.snd).mapM Except.toOption with
  | none => return .error .parts
  | some parts => concatenateParts formats newDefaultSplitter fuel file.Name parts

def uploadFileInternal (NewString : Nat → Bytes) (ParallelUploadAboveSize : Option Int) : Upload (Except UploadError DirEntry) :=
  match file.DirEntryOrNil with
  | some (.error _) => return .error .readPlaceholder
  | some (.ok (some de)) => .ask (.VerifyObject de.ObjectID) fun
    | .result false => return .ok de
    | _ => return .error .invalidPlaceholder
  | _ =>
    let chunkSize := ParallelUploadAboveSize.getD (-1)
    if chunkSize < 0 ∨ file.Size ≤ chunkSize then
      uploadFileData newDefaultSplitter compressor fuel file (splitters 0) file.Name 0 (-1)
    -- an integer is divided by zero
    else if chunkSize = 0 then .fail .panicked
    else uploadInParts formats newDefaultSplitter compressor splitters maxAlloc fuel file NewString chunkSize

end Uploads

end Vbe.Snapshots
