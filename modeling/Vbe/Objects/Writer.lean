import Vbe.Objects.Json
import Vbe.Splitter.Splitters

/-! Writing of objects in chunks, each a content of its own, and the concatenation of objects by their indexes. Chunks may be
written in the background, where they finish in any order. The compressors are parameters. -/
namespace Vbe.Objects
open Vbe.Index (Bytes IDPrefix)
open Vbe.Library Vbe.Splitter

abbrev HeaderID := UInt32

/-- What writers and `Concatenate` ask of the content manager. -/
inductive ContentOp
  | GetContent (contentID : Index.ID)
  | SupportsContentCompression
  | WriteContent (data : Bytes) (idPrefix : IDPrefix) (comp : HeaderID)

inductive ContentReply
  | content (result : Except ContentError Bytes)
  | supports (supported : Bool)
  | written (result : Except ContentError Index.ID)

inductive WriteError
  /-- A loop or recursion had not ended, or something is still waited for. -/
  | unfinished
  | panicked
  | compression
  | writeContent
  | emptyList
  | appending (e : ObjectError)
deriving DecidableEq

abbrev Action := Query ContentOp ContentReply WriteError

structure Compressor where
  HeaderID : HeaderID
  Compress : Bytes → Option Bytes

def NoCompression : HeaderID := 0

def indirectContentPrefix : IDPrefix := [120]

section Chunks

def maybeCompressedObjectID (contentID : Index.ID) (isCompressed : Bool) : ID :=
  if isCompressed then Compressed (DirectObjectID contentID) else DirectObjectID contentID

/-- What is stored of the data, and whether it is compressed; nothing if they cannot be compressed. -/
def maybeCompressedContentBytes (comp : Option Compressor) (input : Bytes) : Option (Bytes × Bool) :=
  match comp with
  | none => some (input,false)
  | some comp => (comp.Compress input).map fun output => if output.length < input.length then (output,true) else (input,false)

def prepareAndWriteContentChunk (compressor : Option Compressor) (idPrefix : IDPrefix) (data : Bytes) : Action (Except WriteError ID) :=
  .ask .SupportsContentCompression fun
    | .supports supported =>
      -- the content manager compresses where it can
      let comp := if supported then (compressor.map Compressor.HeaderID).getD NoCompression else NoCompression
      let objectComp := if supported then none else compressor
      match maybeCompressedContentBytes objectComp data with
      | none => return .error .compression
      | some (contentBytes,isCompressed) => .ask (.WriteContent contentBytes idPrefix comp) fun
        | .written (.ok contentID) => return .ok (maybeCompressedObjectID contentID isCompressed)
        | _ => return .error .writeContent
    | _ => return .error .writeContent

end Chunks

/-- A writer; `pending` are the chunks that are written in the background, each with its place in the index. -/
structure ObjectWriter (factory : Factory) where
  compressor : Option Compressor
  idPrefix : IDPrefix
  splitter : factory.State
  async : Bool
  buffer : Bytes
  currentPosition : Int
  indirectIndex : List IndirectObjectEntry
  pending : List (Nat × Bytes)
  contentWriteError : Option WriteError

def newWriter {factory : Factory} (splitter : factory.State) (compressor : Option Compressor) (idPrefix : IDPrefix) (async : Bool) :
    ObjectWriter factory :=
  ⟨compressor,idPrefix,splitter,async,[],0,[],[],none⟩

namespace ObjectWriter
variable {factory : Factory}

/-- The end of the write of a chunk. -/
def chunkWritten (w : ObjectWriter factory) (chunkID : Nat) : Except WriteError ID → ObjectWriter factory
  | .ok oid => { w with indirectIndex := w.indirectIndex.modify chunkID fun entry => { entry with Object := oid } }
  | .error e => { w with contentWriteError := some e }

def flushBuffer (w : ObjectWriter factory) : Action (ObjectWriter factory × Except WriteError Unit) :=
  let chunkID := w.indirectIndex.length
  let data := w.buffer
  let entry : IndirectObjectEntry := ⟨w.currentPosition,data.length,EmptyID⟩
  let w : ObjectWriter factory := { w with
    indirectIndex := w.indirectIndex ++ [entry]
    currentPosition := w.currentPosition + data.length
    buffer := [] }
  if w.async then return ({ w with pending := w.pending ++ [(chunkID,data)] },.ok ())
  else do
    let result ← prepareAndWriteContentChunk w.compressor w.idPrefix data
    return (w.chunkWritten chunkID result,result.map fun _ => ())

/-- One of the background writes finishes. -/
def complete (w : ObjectWriter factory) (k : Nat) : Action (ObjectWriter factory) :=
  match w.pending[k]? with
  | none => return w
  | some (chunkID,data) => do
    let result ← prepareAndWriteContentChunk w.compressor w.idPrefix data
    return { w with pending := w.pending.eraseIdx k }.chunkWritten chunkID result

/-- The loop of `Write`. A split point is behind the first byte, so that there are not more rounds than bytes. -/
def writeLoop : Nat → ObjectWriter factory → Bytes → Action (ObjectWriter factory × Except WriteError Unit)
  | _, w, [] => return (w,.ok ())
  | 0, _, _ :: _ => .fail .unfinished
  | rounds + 1, w, data =>
    match factory.NextSplitPoint w.splitter data with
    | (splitter,none) => return ({ w with splitter := splitter, buffer := w.buffer ++ data },.ok ())
    | (splitter,some n) =>
      -- a slice expression out of range
      if data.length < n then .fail .panicked
      else do
        let (w,flushed) ← { w with splitter := splitter, buffer := w.buffer ++ data.take n }.flushBuffer
        match flushed with
        | .error e => return (w,.error e)
        | .ok () => writeLoop rounds w (data.drop n)

def Write (w : ObjectWriter factory) (data : Bytes) : Action (ObjectWriter factory × Except WriteError Unit) :=
  writeLoop data.length w data

/-- Waits for the background writes, which finish in some order. -/
def waitAsync (w : ObjectWriter factory) (order : List Nat) : Action (ObjectWriter factory) := do
  let w ← order.foldlM complete w
  if w.pending = [] then return w else .fail .unfinished

section Checkpoints
variable (indexObject : List IndirectObjectEntry → IDPrefix → Action (Except WriteError ID))

/-- The object of the chunks that have been flushed, given how the object of an index is made. -/
def objectOf (w : ObjectWriter factory) : Action (Except WriteError ID) :=
  match w.contentWriteError with
  | some e => return .error e
  | none =>
    match w.indirectIndex with
    | [] => return .ok EmptyID
    | [entry] => return .ok entry.Object
    | entries => do
      let oid ← indexObject entries (if w.idPrefix = [] then indirectContentPrefix else w.idPrefix)
      return oid.map IndirectObjectID

def checkpointLocked (w : ObjectWriter factory) (order : List Nat) : Action (ObjectWriter factory × Except WriteError ID) := do
  let w ← w.waitAsync order
  return (w,← w.objectOf indexObject)

def Result (w : ObjectWriter factory) (order : List Nat) : Action (ObjectWriter factory × Except WriteError ID) :=
  if w.buffer ≠ [] ∨ w.indirectIndex = [] then do
    let (w,flushed) ← w.flushBuffer
    match flushed with
    | .error e => return (w,.error e)
    | .ok () => w.checkpointLocked indexObject order
  else w.checkpointLocked indexObject order

end Checkpoints

end ObjectWriter

section Indexes
variable (newDefaultSplitter : Factory)

def writeIndirectObject (w : ObjectWriter newDefaultSplitter) (entries : List IndirectObjectEntry) :
    Action (ObjectWriter newDefaultSplitter × Except WriteError Unit) :=
  -- no buffer holds more
  if (encode entries).length ≥ 2 ^ 63 then .fail .panicked else w.Write (encode entries)

/-- The object of the text of an index, which may have an index of its own; the bound is on how often. -/
def indexObject : Nat → List IndirectObjectEntry → IDPrefix → Action (Except WriteError ID)
  | 0, _, _ => .fail .unfinished
  | n + 1, entries, idPrefix => do
    let (iw,written) ← writeIndirectObject newDefaultSplitter (newWriter newDefaultSplitter.make none idPrefix false) entries
    match written with
    | .error e => return .error e
    | .ok () => do
      let (_,oid) ← iw.Result (indexObject n) []
      return oid

end Indexes

section Concatenate
variable (f : Formats) (newDefaultSplitter : Factory)

/-- A read in the midst of writes. -/
def reading {α : Type} : Fetch α → Action α
  | .answer a => .answer a
  | .fail e => .fail (.appending e)
  | .ask contentID next => .ask (.GetContent contentID) fun
    | .content result => reading (next result)
    | _ => .fail .panicked

def appendIndexEntries (indexEntries : List IndirectObjectEntry) (startingLength : Int) (incoming : List IndirectObjectEntry) :
    List IndirectObjectEntry × Int :=
  (indexEntries ++ incoming.map fun inc => { inc with Start := inc.Start + startingLength },
    startingLength + (incoming.map IndirectObjectEntry.Length).sum)

def appendIndexEntriesForObject (n : Nat) (indexEntries : List IndirectObjectEntry) (startingLength : Int) (objectID : ID) :
    Action (List IndirectObjectEntry × Int) :=
  match objectID.IndexObjectID with
  | some indexObjectID => do
    let ndx ← reading ((level f n).LoadIndexObject f n indexObjectID)
    return appendIndexEntries indexEntries startingLength ndx
  | none => do
    -- how long the object is can only be seen from its bytes
    let r ← reading (Open f n objectID)
    return appendIndexEntries indexEntries startingLength [⟨0,r.Length,objectID⟩]

/-- The bound is on the levels of indexes that are read and written. -/
def Concatenate (n : Nat) : List ID → Action ID
  | [] => .fail .emptyList
  | [objectID] => return objectID
  | objectIDs => do
    let (concatenatedEntries,_) ← objectIDs.foldlM (fun acc objectID => appendIndexEntriesForObject f n acc.1 acc.2 objectID) ([],0)
    let concatID ← indexObject newDefaultSplitter n concatenatedEntries indirectContentPrefix
    match concatID with
    | .error e => .fail e
    | .ok concatID => return IndirectObjectID concatID

end Concatenate

end Vbe.Objects
