import Vbe.Objects.Objectid
import Vbe.Library.Queries
import Mathlib.Data.PNat.Notation

/-! Reading of objects. A reader asks for contents; how deep the objects of an index may lie is
not bounded by their identifiers, so the recursion is on a bound that a run has to stay below. -/
namespace Vbe.Objects
open Vbe.Index (Bytes)
open Vbe.Library

inductive ContentError
  | notFound
  | other
deriving DecidableEq

inductive ObjectError
  /-- The recursion had not ended. -/
  | unfinished
  | panicked
  | objectNotFound
  | unexpectedContent
  | unsupportedObjectID
  | unrecognizedObjectType
  | decompression
  | unexpectedChunkLength
  | invalidIndirectObject
  | readingChunk
  | contentInfo
deriving DecidableEq

abbrev Fetch := Query Index.ID (Except ContentError Bytes) ObjectError

/-- A decoder of JSON reads into its next buffer until it has decoded a value, `none` if the
text is not a value of the type. -/
structure Decoder where
  State : Type
  NewDecoder : State
  next : State → Nat ⊕ Option (List IndirectObjectEntry)
  read : State → Bytes → State
  eof : State → Option (List IndirectObjectEntry)
  /-- A buffer has room for at least `bytes.MinRead` bytes. -/
  room : ∀ s size, next s = .inl size → 0 < size

structure Formats where
  json : Decoder
  DecompressByHeader : Bytes → Option Bytes

structure ObjectReader where
  seekTable : List IndirectObjectEntry
  currentPosition : Int
  totalLength : Int
  currentChunkIndex : Nat
  currentChunkData : Option Bytes
  currentChunkPosition : Nat

inductive Reader
  | withData (data : Bytes) (position : Nat)
  | object (r : ObjectReader)

def Reader.Length : Reader → Int
  | .withData data _ => data.length
  | .object r => r.totalLength

section Read
variable (openCurrentChunk : IndirectObjectEntry → Fetch Bytes)

namespace ObjectReader

/-- The data of the current chunk, which is opened if it is not open, and the position in it. -/
def openedChunk (r : ObjectReader) (st : IndirectObjectEntry) : Fetch (Bytes × Nat) :=
  match r.currentChunkData with
  | some data => return (data,r.currentChunkPosition)
  | none => do return (← openCurrentChunk st,0)

/-- The loop of `Read` over the chunks from the current one on. -/
def readChunks : List IndirectObjectEntry → ObjectReader → Nat → Fetch (Bytes × ObjectReader)
  | [], r, _ => return ([],r)
  | st :: ahead, r, remaining => do
    let (data,position) ← r.openedChunk openCurrentChunk st
    let toCopy := min (data.length - position) remaining
    let copied := (data.drop position).take toCopy
    if toCopy = remaining then
      return (copied,{ r with
        currentPosition := r.currentPosition + toCopy
        currentChunkData := some data
        currentChunkPosition := position + toCopy })
    else do
      -- the chunk has ended before the buffer
      let (more,r) ← readChunks ahead { r with
        currentPosition := r.currentPosition + toCopy
        currentChunkData := none
        currentChunkPosition := position + toCopy
        currentChunkIndex := r.currentChunkIndex + 1 } (remaining - toCopy)
      return (copied ++ more,r)

/-- No bytes stand for the end of the object. -/
def Read (r : ObjectReader) (size : Nat) : Fetch (Bytes × ObjectReader) :=
  if r.currentPosition ≥ r.totalLength then return ([],r)
  else if size = 0 then return ([],r)
  else r.readChunks openCurrentChunk (r.seekTable.drop r.currentChunkIndex) size

end ObjectReader

end Read

/-- What can be opened and read within a bound on the recursion. -/
structure Level where
  openAndAssertLength : ID → Int → Fetch Reader
  Read : Reader → Nat → Fetch (Bytes × Reader)

/-- `io.ReadFull`, in at most as many reads as bytes are wanted. -/
def readFull (read : Reader → Nat → Fetch (Bytes × Reader)) : Nat → Reader → Nat → Fetch (Bytes × Reader)
  | _, rd, 0 => return ([],rd)
  | 0, _, _ + 1 => .fail .unfinished
  | reads + 1, rd, want + 1 => do
    let (bytes,rd) ← read rd (want + 1)
    if bytes = [] then .fail .readingChunk
    else do
      let (more,rd) ← readFull read reads rd (want + 1 - bytes.length)
      return (bytes ++ more,rd)

def Level.openCurrentChunk (l : Level) (st : IndirectObjectEntry) : Fetch Bytes := do
  let rd ← l.openAndAssertLength st.Object st.Length
  -- a slice of negative length is not made
  if st.Length < 0 then .fail .panicked
  else do
    let (b,_) ← readFull l.Read st.Length.toNat rd st.Length.toNat
    return b

variable (f : Formats)

/-- `Decode`: what is decoded, and how far the reader has got. -/
def decode (read : Reader → Nat → Fetch (Bytes × Reader)) :
    Nat → f.json.State → Reader → Fetch (Option (List IndirectObjectEntry) × Reader)
  | 0, _, _ => .fail .unfinished
  | reads + 1, s, r =>
    match f.json.next s with
    | .inr decoded => return (decoded,r)
    | .inl size => do
      let (bytes,r) ← read r size
      if bytes = [] then return (f.json.eof s,r) else decode read reads (f.json.read s bytes) r

/-- `LoadIndexObject` and the reader that it leaves. -/
def Level.readIndexObject (l : Level) (reads : Nat) (indexObjectID : ID) : Fetch (List IndirectObjectEntry × Reader) := do
  let r ← l.openAndAssertLength indexObjectID (-1)
  let (ind,r) ← decode f l.Read reads f.json.NewDecoder r
  match ind with
  | none => .fail .invalidIndirectObject
  | some entries => return (entries,r)

def Level.LoadIndexObject (l : Level) (reads : Nat) (indexObjectID : ID) : Fetch (List IndirectObjectEntry) := do
  let (entries,_) ← l.readIndexObject f reads indexObjectID
  return entries

def newRawReader (objectID : ID) (assertLength : Int) : Fetch Reader :=
  match objectID.ContentID with
  | none => .fail .unsupportedObjectID
  | some (contentID,compressed) => .ask contentID fun
    | .error .notFound => .fail .objectNotFound
    | .error .other => .fail .unexpectedContent
    | .ok payload =>
      match if compressed then f.DecompressByHeader payload else some payload with
      | none => .fail .decompression
      | some payload =>
        if assertLength ≠ -1 ∧ (payload.length : Int) ≠ assertLength then .fail .unexpectedChunkLength
        else return .withData payload 0

/-- A reader of an object that an index lists. -/
def newObjectReader (seekTable : List IndirectObjectEntry) (last : IndirectObjectEntry) : ObjectReader where
  seekTable := seekTable
  currentPosition := 0
  totalLength := last.endOffset
  currentChunkIndex := 0
  currentChunkData := none
  currentChunkPosition := 0

def level : Nat → Level
  | 0 => ⟨fun _ _ => .fail .unfinished,fun _ _ => .fail .unfinished⟩
  | n + 1 => {
    openAndAssertLength := fun objectID assertLength =>
      match objectID.IndexObjectID with
      | some indexObjectID => do
        let seekTable ← (level n).LoadIndexObject f n indexObjectID
        match seekTable.getLast? with
        -- the last entry of an empty table
        | none => .fail .panicked
        | some last => return .object (newObjectReader seekTable last)
      | none => newRawReader f objectID assertLength
    Read := fun r size =>
      match r with
      | .withData data position =>
        return ((data.drop position).take size,.withData data (position + ((data.drop position).take size).length))
      | .object r => do
        let (bytes,r) ← r.Read (level n).openCurrentChunk size
        return (bytes,.object r) }

/-- Reads into buffers of the given sizes, the last of which finds the end. -/
def readAll (read : Reader → Nat → Fetch (Bytes × Reader)) : List ℕ+ → Reader → Fetch Bytes
  | [], _ => .fail .unfinished
  | size :: sizes, r => do
    let (bytes,r) ← read r size
    if bytes = [] then return []
    else do
      let more ← readAll read sizes r
      return bytes ++ more

def Open (n : Nat) (objectID : ID) : Fetch Reader := (level f n).openAndAssertLength objectID (-1)

/-- `Open`, and reads up to the end. -/
def readObject (n : Nat) (objectID : ID) (sizes : List ℕ+) : Fetch Bytes := do
  let r ← Open f n objectID
  readAll (level f n).Read sizes r

section Verify

/-- The content manager as far as readers use it. -/
structure ContentReader where
  ContentInfo : Index.ID → Except ContentError Index.Info
  GetContent : Index.ID → Except ContentError Bytes

variable (cr : ContentReader) (callbackFunc : Index.ID → Except ObjectError Unit)

/-- The contents in the order in which they are tracked. -/
def iterateBackingContents : Nat → ID → Except ObjectError (List Index.ID)
  | 0, _ => .error .unfinished
  | n + 1, oid =>
    match oid.IndexObjectID with
    | some indexObjectID => do
      let backing ← iterateBackingContents n indexObjectID
      let seekTable ← ((level f n).LoadIndexObject f n indexObjectID).outcome cr.GetContent
      let entries ← seekTable.mapM fun m => iterateBackingContents n m.Object
      return backing ++ entries.flatten
    | none =>
      match oid.ContentID with
      | some (contentID,_) => do
        callbackFunc contentID
        return [contentID]
      | none => .error .unrecognizedObjectType

def VerifyObject (n : Nat) (oid : ID) : Except ObjectError (List Index.ID) :=
  iterateBackingContents f cr (fun contentID => match cr.ContentInfo contentID with
    | .ok _ => .ok ()
    | .error _ => .error .contentInfo) n oid

end Verify

end Vbe.Objects
