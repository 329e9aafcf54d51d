import Vbe.Objects.Seeking
import Vbe.Objects.Writer
import Vbe.Splitter.Stability

/-! What writers make. The chunks of a writer follow each other, and each is in a content or still waited for; the index of an
object lists all of them, and is an object itself. -/
namespace Vbe.Objects
open Vbe.Index (Bytes IDPrefix)
open Vbe.Library Vbe.Splitter

section Contents
variable (f : Formats) (cr : ContentReader)

/-- What the content manager may reply, if in the end the repository holds these contents. -/
def Kept : ContentOp → ContentReply → Prop
  | .GetContent contentID, .content result => result = cr.GetContent contentID
  | .SupportsContentCompression, .supports _ => True
  | .WriteContent data _ _, .written (.ok contentID) => contentID.Valid ∧ cr.GetContent contentID = .ok data
  | .WriteContent _ _ _, .written (.error _) => True
  | _, _ => False

def Compressor.Inverts (comp : Compressor) : Prop :=
  ∀ input output, comp.Compress input = some output → f.DecompressByHeader output = some input

/-- What an object holds that is a single content. -/
def directBytes (oid : ID) : Option Bytes :=
  match oid.ContentID with
  | none => none
  | some (contentID,compressed) =>
    match cr.GetContent contentID with
    | .error _ => none
    | .ok payload => if compressed then f.DecompressByHeader payload else some payload

def entryBytes (e : IndirectObjectEntry) : Bytes := (directBytes f cr e.Object).getD []

structure Single (oid : ID) (bytes : Bytes) : Prop where
  single : oid.indirection = 0
  valid : oid.cid.Valid
  held : directBytes f cr oid = some bytes

/-- The entries of an index follow each other, and each is a single content. -/
structure Table (entries : List IndirectObjectEntry) : Prop where
  some : entries ≠ []
  contiguous : Contiguous (entryBytes f cr) 0 entries
  single : ∀ e ∈ entries, Single f cr e.Object (entryBytes f cr e)

/-- Objects as writers make them: a content, or an index that lists contents. -/
inductive WholeObject : ID → Bytes → Prop
  | direct {oid : ID} {bytes : Bytes} (single : Single f cr oid bytes) : WholeObject oid bytes
  | indirect {oid index : ID} {entries : List IndirectObjectEntry} (indirect : oid.IndexObjectID = some index)
      (listed : WholeObject index (encode entries)) (table : Table f cr entries) : WholeObject oid (entries.flatMap (entryBytes f cr))

variable {f cr} {oid : ID} {bytes : Bytes} {entries : List IndirectObjectEntry}

theorem Single.ContentID (single : Single f cr oid bytes) : oid.ContentID = some (oid.cid,oid.compression) := by
  rw [ID.ContentID,single.single]
  rfl

theorem Single.payload (single : Single f cr oid bytes) : ∃ payload, cr.GetContent oid.cid = .ok payload ∧
    (if oid.compression then f.DecompressByHeader payload else some payload) = some bytes := by
  have held := single.held
  rw [directBytes,single.ContentID] at held
  dsimp only at held
  split at held
  next => contradiction
  next payload found => exact ⟨payload,found,held⟩

theorem Contiguous.bounds {content : IndirectObjectEntry → Bytes} {start : Int} (contiguous : Contiguous content start entries)
    {e : IndirectObjectEntry} (member : e ∈ entries) :
    start ≤ e.Start ∧ e.Length = (content e).length ∧ e.Start + e.Length ≤ start + (entries.flatMap content).length := by
  obtain ⟨i,found⟩ := List.mem_iff_getElem?.mp member
  obtain ⟨first,length⟩ := contiguous.entry found
  have whole := @length_take_le content entries (i + 1) entries.length (List.getElem?_eq_some_iff.mp found).1
  rw [length_take_succ found,List.take_length] at whole
  refine ⟨?_,length,?_⟩
  · omega
  · omega

theorem Table.encodable (table : Table f cr entries) : ∀ e ∈ entries, e.Encodable := by
  intro e member
  obtain ⟨start,length,_⟩ := table.contiguous.bounds member
  obtain ⟨single,valid,_⟩ := table.single e member
  exact ⟨start,by omega,single,valid⟩

/-- Entries that are at their places follow each other. -/
theorem contiguous_of_entries {content : IndirectObjectEntry → Bytes} {start : Int}
    (places : ∀ i e, entries[i]? = some e → e.Start = start + ((entries.take i).flatMap content).length ∧ e.Length = (content e).length) :
    Contiguous content start entries := by
  induction entries generalizing start with
  | nil => trivial
  | cons e entries ih =>
    obtain ⟨first,length⟩ := places 0 e rfl
    refine ⟨by simpa using first,length,ih fun i e' found => ?_⟩
    obtain ⟨start',length'⟩ := places (i + 1) e' (by simpa using found)
    refine ⟨?_,length'⟩
    rw [start',List.take_succ_cons,List.flatMap_cons,List.length_append,length]
    push_cast
    ring

/-- Below the largest level, the index of an indirect object is found again. -/
theorem IndirectObjectID_index {index : ID} (few : index.indirection.toNat < 255) :
    (IndirectObjectID index).IndexObjectID = some index ∧ (IndirectObjectID index).indirection.toNat = index.indirection.toNat + 1 := by
  have next : (IndirectObjectID index).indirection.toNat = index.indirection.toNat + 1 := by
    rw [IndirectObjectID,UInt8.toNat_add]
    exact Nat.mod_eq_of_lt (by simp; omega)
  refine ⟨?_,next⟩
  rw [ID.IndexObjectID,if_pos (UInt8.lt_iff_toNat_lt.mpr (by rw [next]; simp))]
  simp [IndirectObjectID]

theorem WholeObject.stored (inverts : f.json.Inverts) (object : WholeObject f cr oid bytes) : Stored f cr False oid bytes := by
  induction object with
  | direct single =>
    obtain ⟨payload,found,plain⟩ := single.payload
    exact .direct single.ContentID found plain
  | @indirect oid index entries indirect listed table ih =>
    obtain ⟨left,decoded⟩ := inverts entries table.encodable
    refine .indirect indirect ih decoded nofun (fun e member => ?_) (fun e member => (table.contiguous.bounds member).2.1) nofun
      (List.getLast?_eq_some_getLast table.some) ?_
    · obtain ⟨payload,found,plain⟩ := (table.single e member).payload
      exact .direct (table.single e member).ContentID found plain
    · rw [table.contiguous.total (List.getLast?_eq_some_getLast table.some),zero_add]

end Contents

section Chunks
variable {f : Formats} {cr : ContentReader}

/-- A chunk that has been written is held by its object. -/
theorem prepareAndWriteContentChunk_ends {compressor : Option Compressor} (inverts : ∀ comp ∈ compressor, comp.Inverts f)
    {idPrefix : IDPrefix} {data : Bytes} {oid : ID}
    (run : (prepareAndWriteContentChunk compressor idPrefix data).Ends (Kept cr) (.ok (.ok oid))) : Single f cr oid data := by
  obtain ⟨reply,allowed,rest⟩ := run
  cases reply with
  | content result => exact allowed.elim
  | written result => exact allowed.elim
  | supports supported =>
    dsimp only at rest
    generalize same : (if supported then none else compressor) = objectComp at rest
    have fits : ∀ comp ∈ objectComp, comp.Inverts f := by
      subst same
      split
      · simp
      · exact inverts
    cases stored : maybeCompressedContentBytes objectComp data with
    | none =>
      rw [stored] at rest
      cases rest
    | some result =>
      obtain ⟨contentBytes,isCompressed⟩ := result
      rw [stored] at rest
      obtain ⟨reply,written,rest⟩ := rest
      cases reply with
      | content result => exact written.elim
      | supports supported => exact written.elim
      | written result =>
        cases result with
        | error e => cases rest
        | ok contentID =>
          cases rest
          obtain ⟨valid,found⟩ := written
          have plain : (if isCompressed then f.DecompressByHeader contentBytes else some contentBytes) = some data := by
            cases objectComp with
            | none =>
              cases stored
              rfl
            | some comp =>
              obtain ⟨output,compressed,made⟩ := Option.map_eq_some_iff.mp stored
              split at made
              · cases made
                exact fits comp rfl data _ compressed
              · cases made
                rfl
          refine ⟨?_,?_,?_⟩
          · cases isCompressed <;> rfl
          · cases isCompressed <;> exact valid
          · cases isCompressed
            all_goals
              change (match cr.GetContent contentID with
                | .error _ => none
                | .ok payload => _) = _
              rw [found]
              exact plain

variable {factory : Factory}

namespace ObjectWriter

/-- The chunks of a writer so far. -/
structure Filled (f : Formats) (cr : ContentReader) (w : ObjectWriter factory) (bytes : Bytes) (chunks : List Bytes) : Prop where
  bytes : bytes = chunks.flatten ++ w.buffer
  count : w.indirectIndex.length = chunks.length
  position : w.currentPosition = chunks.flatten.length
  entries : ∀ i e chunk, w.indirectIndex[i]? = some e → chunks[i]? = some chunk →
    e.Start = ((chunks.take i).flatten.length : Int) ∧ e.Length = chunk.length ∧ ((i,chunk) ∈ w.pending ∨ Single f cr e.Object chunk)
  pending : ∀ p ∈ w.pending, chunks[p.1]? = some p.2

/-- Unless a chunk could not be written, the writer holds what was written to it. -/
structure Sound (f : Formats) (cr : ContentReader) (w : ObjectWriter factory) (bytes : Bytes) : Prop where
  inverts : ∀ comp ∈ w.compressor, comp.Inverts f
  filled : w.contentWriteError = none → ∃ chunks, w.Filled f cr bytes chunks

variable {w w' : ObjectWriter factory} {bytes : Bytes} {chunks : List Bytes}

theorem Filled.chunkWritten (filled : w.Filled f cr bytes chunks) {k i : Nat} {chunk : Bytes} (found : w.pending[k]? = some (i,chunk))
    {oid : ID} (single : Single f cr oid chunk) :
    ({ w with pending := w.pending.eraseIdx k }.chunkWritten i (.ok oid)).Filled f cr bytes chunks := by
  have own : chunks[i]? = some chunk := filled.pending _ (List.mem_of_getElem? found)
  refine ⟨filled.bytes,?_,filled.position,?_,fun p member => filled.pending p (List.mem_of_mem_eraseIdx member)⟩
  · rw [ObjectWriter.chunkWritten,List.length_modify]
    exact filled.count
  · intro j e chunk' there here
    rw [ObjectWriter.chunkWritten,List.getElem?_modify] at there
    obtain ⟨e',before,rfl⟩ := Option.map_eq_some_iff.mp there
    obtain ⟨start,length,state⟩ := filled.entries j e' chunk' before here
    by_cases same : i = j
    · subst same
      obtain rfl : chunk = chunk' := Option.some.inj (own.symm.trans here)
      rw [if_pos rfl]
      exact ⟨start,length,.inr single⟩
    · rw [if_neg same]
      refine ⟨start,length,state.imp_left fun waiting => ?_⟩
      obtain ⟨m,at'⟩ := List.mem_iff_getElem?.mp waiting
      refine List.mem_eraseIdx_iff_getElem?.mpr ⟨m,?_,at'⟩
      rintro rfl
      rw [found] at at'
      exact same (Prod.mk.inj (Option.some.inj at')).1

/-- The write of a chunk finishes. -/
theorem Sound.finished (sound : w.Sound f cr bytes) {k i : Nat} {chunk : Bytes} (found : w.pending[k]? = some (i,chunk))
    {result : Except WriteError ID} (written : (prepareAndWriteContentChunk w.compressor w.idPrefix chunk).Ends (Kept cr) (.ok result)) :
    ({ w with pending := w.pending.eraseIdx k }.chunkWritten i result).Sound f cr bytes ∧
      (∀ e, result = .error e → ({ w with pending := w.pending.eraseIdx k }.chunkWritten i result).contentWriteError ≠ none) ∧
      (({ w with pending := w.pending.eraseIdx k }.chunkWritten i result).contentWriteError = none → w.contentWriteError = none) := by
  cases result with
  | error e =>
    refine ⟨⟨sound.inverts,nofun⟩,fun _ _ => nofun,nofun⟩
  | ok oid =>
    refine ⟨⟨sound.inverts,fun whole => ?_⟩,nofun,id⟩
    obtain ⟨chunks,filled⟩ := sound.filled whole
    exact ⟨chunks,filled.chunkWritten found (prepareAndWriteContentChunk_ends sound.inverts written)⟩

/-- A chunk is handed to the background. -/
theorem Filled.handed (filled : w.Filled f cr bytes chunks) {w' : ObjectWriter factory} (handed : w' = { w with
      indirectIndex := w.indirectIndex ++ [⟨w.currentPosition,w.buffer.length,EmptyID⟩]
      currentPosition := w.currentPosition + w.buffer.length
      buffer := []
      pending := w.pending ++ [(w.indirectIndex.length,w.buffer)] }) : w'.Filled f cr bytes (chunks ++ [w.buffer]) := by
  subst handed
  refine ⟨?_,?_,?_,?_,?_⟩
  · simpa using filled.bytes
  · simpa using filled.count
  · have position := filled.position
    simp only [List.flatten_append,List.length_append,List.flatten_singleton]
    omega
  · intro i e chunk there here
    have count := filled.count
    by_cases old : i < chunks.length
    · rw [List.getElem?_append_left (count ▸ old)] at there
      rw [List.getElem?_append_left old] at here
      obtain ⟨start,length,state⟩ := filled.entries i e chunk there here
      rw [List.take_append_of_le_length old.le]
      exact ⟨start,length,state.imp_left fun waiting => List.mem_append_left _ waiting⟩
    · have inside := (List.getElem?_eq_some_iff.mp here).1
      rw [List.length_append,List.length_singleton] at inside
      obtain rfl : i = chunks.length := by omega
      rw [← count,List.getElem?_concat_length] at there
      rw [List.getElem?_concat_length] at here
      cases there
      cases here
      rw [List.take_left]
      exact ⟨filled.position,rfl,.inl (List.mem_append_right _ (by simp [count]))⟩
  · intro p member
    rcases List.mem_append.mp member with old | new
    · have before := filled.pending p old
      rwa [List.getElem?_append_left (List.getElem?_eq_some_iff.mp before).1]
    · obtain rfl := List.mem_singleton.mp new
      simp [filled.count]

/-- What a flush does to the rest of the writer. -/
theorem flushBuffer_keeps {result : Except WriteError Unit} (run : w.flushBuffer.Ends (Kept cr) (.ok (w',result))) :
    w'.buffer = [] ∧ w'.indirectIndex.length = w.indirectIndex.length + 1 ∧ (w.async = false → w'.pending = w.pending) ∧
      w'.async = w.async ∧ w'.splitter = w.splitter := by
  rw [flushBuffer] at run
  dsimp only at run
  split at run
  next async =>
    obtain ⟨rfl,rfl⟩ := Prod.mk.inj (Query.ends_pure.mp run)
    exact ⟨rfl,by simp,fun sync => absurd (async.symm.trans sync) (by decide),rfl,rfl⟩
  next sync =>
    obtain ⟨written,_,rest⟩ := Query.ends_bind.mp run
    obtain ⟨rfl,rfl⟩ := Prod.mk.inj (Query.ends_pure.mp rest)
    cases written with
    | error e => exact ⟨rfl,by simp [chunkWritten],fun _ => rfl,rfl,rfl⟩
    | ok oid => exact ⟨rfl,by simp [chunkWritten],fun _ => rfl,rfl,rfl⟩

/-- A flush in the foreground is one in the background that finishes at once. -/
theorem flushBuffer_ends (sound : w.Sound f cr bytes) {result : Except WriteError Unit}
    (run : w.flushBuffer.Ends (Kept cr) (.ok (w',result))) :
    w'.Sound f cr bytes ∧ (∀ e, result = .error e → w'.contentWriteError ≠ none) ∧
      (w'.contentWriteError = none → w.contentWriteError = none) := by
  obtain ⟨handed,made⟩ : ∃ handed : ObjectWriter factory, handed = { w with
      indirectIndex := w.indirectIndex ++ [⟨w.currentPosition,w.buffer.length,EmptyID⟩]
      currentPosition := w.currentPosition + w.buffer.length
      buffer := []
      pending := w.pending ++ [(w.indirectIndex.length,w.buffer)] } := ⟨_,rfl⟩
  have sound' : handed.Sound f cr bytes := by
    refine ⟨made ▸ sound.inverts,fun whole => ?_⟩
    obtain ⟨chunks,filled⟩ := sound.filled (by rwa [made] at whole)
    exact ⟨_,filled.handed made⟩
  rw [flushBuffer] at run
  dsimp only at run
  split at run
  next async =>
    obtain ⟨rfl,rfl⟩ := Prod.mk.inj (Query.ends_pure.mp run)
    subst made
    exact ⟨sound',nofun,id⟩
  next sync =>
    obtain ⟨written,wrote,rest⟩ := Query.ends_bind.mp run
    obtain ⟨rfl,rfl⟩ := Prod.mk.inj (Query.ends_pure.mp rest)
    have last : handed.pending[w.pending.length]? = some (w.indirectIndex.length,w.buffer) := by
      rw [made]
      exact List.getElem?_concat_length
    obtain ⟨finished,failed,kept⟩ := sound'.finished last
      (show (prepareAndWriteContentChunk handed.compressor handed.idPrefix w.buffer).Ends (Kept cr) (.ok written) by rw [made]; exact wrote)
    have same : ({ handed with pending := handed.pending.eraseIdx w.pending.length } : ObjectWriter factory) = { w with
        indirectIndex := w.indirectIndex ++ [⟨w.currentPosition,w.buffer.length,EmptyID⟩]
        currentPosition := w.currentPosition + w.buffer.length
        buffer := [] } := by
      rw [made]
      simp [List.eraseIdx_append_of_length_le]
    rw [same] at finished failed kept
    refine ⟨finished,fun e wrong => ?_,fun whole => ?_⟩
    · cases written with
      | error e => exact failed e rfl
      | ok oid => cases wrong
    · have before := kept whole
      rwa [made] at before

theorem Sound.append (sound : w.Sound f cr bytes) (splitter : factory.State) (data : Bytes) :
    ({ w with splitter := splitter, buffer := w.buffer ++ data } : ObjectWriter factory).Sound f cr (bytes ++ data) := by
  refine ⟨sound.inverts,fun whole => ?_⟩
  obtain ⟨chunks,filled⟩ := sound.filled whole
  refine ⟨chunks,?_,filled.count,filled.position,filled.entries,filled.pending⟩
  rw [filled.bytes,List.append_assoc]

theorem writeLoop_ends {rounds : Nat} {data : Bytes} (sound : w.Sound f cr bytes) {result : Except WriteError Unit}
    (run : (writeLoop rounds w data).Ends (Kept cr) (.ok (w',result))) :
    w'.Sound f cr (bytes ++ data) ∧ (∀ e, result = .error e → w'.contentWriteError ≠ none) ∧
      (w'.contentWriteError = none → w.contentWriteError = none) := by
  induction rounds generalizing w bytes data with
  | zero =>
    cases data with
    | nil =>
      obtain ⟨rfl,rfl⟩ := Prod.mk.inj (Query.ends_pure.mp run)
      rw [List.append_nil]
      exact ⟨sound,nofun,id⟩
    | cons b data => exact absurd run Query.ends_fail
  | succ rounds ih =>
    cases data with
    | nil =>
      obtain ⟨rfl,rfl⟩ := Prod.mk.inj (Query.ends_pure.mp run)
      rw [List.append_nil]
      exact ⟨sound,nofun,id⟩
    | cons b data =>
      rw [writeLoop] at run
      · generalize factory.NextSplitPoint w.splitter (b :: data) = next at run
        obtain ⟨splitter,none | n⟩ := next
        · obtain ⟨rfl,rfl⟩ := Prod.mk.inj (Query.ends_pure.mp run)
          exact ⟨sound.append splitter _,nofun,id⟩
        · dsimp only at run
          split at run
          next => exact absurd run Query.ends_fail
          next =>
            obtain ⟨⟨flushed,ended⟩,first,rest⟩ := Query.ends_bind.mp run
            obtain ⟨sound',failed,kept⟩ := flushBuffer_ends (sound.append splitter ((b :: data).take n)) first
            cases ended with
            | error e =>
              obtain ⟨rfl,rfl⟩ := Prod.mk.inj (Query.ends_pure.mp rest)
              exact ⟨⟨sound'.inverts,fun whole => absurd whole (failed e rfl)⟩,fun _ _ => failed e rfl,kept⟩
            | ok _ =>
              obtain ⟨sound'',failed',kept'⟩ := ih sound' rest
              rw [List.append_assoc,List.take_append_drop] at sound''
              exact ⟨sound'',failed',fun whole => kept (kept' whole)⟩
      · simp

theorem complete_ends {k : Nat} (sound : w.Sound f cr bytes) (run : (w.complete k).Ends (Kept cr) (.ok w')) :
    w'.Sound f cr bytes ∧ (w'.contentWriteError = none → w.contentWriteError = none) ∧ w'.indirectIndex.length = w.indirectIndex.length ∧
      w'.currentPosition = w.currentPosition ∧ w'.buffer = w.buffer := by
  rw [complete] at run
  split at run
  next =>
    obtain rfl := Query.ends_pure.mp run
    exact ⟨sound,id,rfl,rfl,rfl⟩
  next chunkID data found =>
    obtain ⟨written,wrote,rest⟩ := Query.ends_bind.mp run
    obtain rfl := Query.ends_pure.mp rest
    obtain ⟨sound',_,kept⟩ := sound.finished found wrote
    refine ⟨sound',kept,?_,?_,?_⟩
    all_goals cases written <;> simp [chunkWritten]

theorem waitAsync_ends {order : List Nat} (sound : w.Sound f cr bytes) (run : (w.waitAsync order).Ends (Kept cr) (.ok w')) :
    w'.Sound f cr bytes ∧ w'.pending = [] ∧ w'.indirectIndex.length = w.indirectIndex.length ∧
      w'.currentPosition = w.currentPosition ∧ w'.buffer = w.buffer := by
  obtain ⟨waited,loop,rest⟩ := Query.ends_bind.mp run
  have kept : waited.Sound f cr bytes ∧ waited.indirectIndex.length = w.indirectIndex.length ∧
      waited.currentPosition = w.currentPosition ∧ waited.buffer = w.buffer := by
    clear run rest
    induction order generalizing w with
    | nil =>
      obtain rfl := Query.ends_pure.mp loop
      exact ⟨sound,rfl,rfl,rfl⟩
    | cons k order ih =>
      rw [List.foldlM_cons] at loop
      obtain ⟨next,first,later⟩ := Query.ends_bind.mp loop
      obtain ⟨sound',_,length,position,buffer⟩ := complete_ends sound first
      obtain ⟨sound'',length',position',buffer'⟩ := ih sound' later
      exact ⟨sound'',length'.trans length,position'.trans position,buffer'.trans buffer⟩
  split at rest
  next none =>
    obtain rfl := Query.ends_pure.mp rest
    exact ⟨kept.1,none,kept.2.1,kept.2.2⟩
  next => exact absurd rest Query.ends_fail

/-- Once nothing is waited for, the index lists what has been flushed. -/
theorem Filled.table (filled : w.Filled f cr bytes chunks) (idle : w.pending = []) (begun : w.indirectIndex ≠ []) :
    Table f cr w.indirectIndex ∧ w.indirectIndex.flatMap (entryBytes f cr) = bytes.take w.currentPosition.toNat := by
  have held (i : Nat) (e : IndirectObjectEntry) (found : w.indirectIndex[i]? = some e) :
      chunks[i]? = some (entryBytes f cr e) ∧ Single f cr e.Object (entryBytes f cr e) := by
    have inside : i < chunks.length := filled.count ▸ (List.getElem?_eq_some_iff.mp found).1
    have here : chunks[i]? = some chunks[i] := List.getElem?_eq_getElem inside
    obtain ⟨_,_,waiting | single⟩ := filled.entries i e _ found here
    · exact absurd (idle ▸ waiting) List.not_mem_nil
    · have own : entryBytes f cr e = chunks[i] := by
        rw [entryBytes,single.held]
        rfl
      rw [own]
      exact ⟨here,single⟩
  have same : w.indirectIndex.map (entryBytes f cr) = chunks := by
    apply List.ext_getElem?
    intro i
    rw [List.getElem?_map]
    cases found : w.indirectIndex[i]? with
    | none =>
      rw [Option.map_none,eq_comm,List.getElem?_eq_none_iff,← filled.count]
      exact List.getElem?_eq_none_iff.mp found
    | some e => exact (held i e found).1.symm
  have before (i : Nat) : (w.indirectIndex.take i).flatMap (entryBytes f cr) = (chunks.take i).flatten := by
    rw [← same,← List.map_take,List.flatMap_def]
  refine ⟨⟨begun,contiguous_of_entries fun i e found => ?_,fun e member => ?_⟩,?_⟩
  · obtain ⟨start,length,_⟩ := filled.entries i e _ found (held i e found).1
    rw [before,start,zero_add]
    exact ⟨rfl,length⟩
  · obtain ⟨i,found⟩ := List.mem_iff_getElem?.mp member
    exact (held i e found).2
  · rw [List.flatMap_def,same,filled.position,filled.bytes,Int.toNat_natCast,List.take_left]

variable {index : List IndirectObjectEntry → IDPrefix → Action (Except WriteError ID)}

theorem objectOf_whole {oid : ID} (run : (w.objectOf index).Ends (Kept cr) (.ok (.ok oid))) : w.contentWriteError = none := by
  rw [objectOf] at run
  cases failed : w.contentWriteError with
  | some e =>
    rw [failed] at run
    cases run
  | none => rfl

/-- The object of a writer that waits for nothing, given that the objects of indexes have their texts. -/
theorem objectOf_ends (sound : w.Sound f cr bytes) (idle : w.pending = []) (begun : w.indirectIndex ≠ []) {levels : Nat} (few : levels < 255)
    (indexed : 1 < w.indirectIndex.length → ∀ idPrefix oid, (index w.indirectIndex idPrefix).Ends (Kept cr) (.ok (.ok oid)) →
      WholeObject f cr oid (encode w.indirectIndex) ∧ oid.indirection.toNat ≤ levels) {oid : ID}
    (run : (w.objectOf index).Ends (Kept cr) (.ok (.ok oid))) :
    WholeObject f cr oid (bytes.take w.currentPosition.toNat) ∧
      oid.indirection.toNat ≤ if 1 < w.indirectIndex.length then levels + 1 else 0 := by
  have whole := objectOf_whole run
  obtain ⟨chunks,filled⟩ := sound.filled whole
  obtain ⟨table,bytes'⟩ := filled.table idle begun
  obtain ⟨first,entries,same⟩ := List.exists_cons_of_ne_nil begun
  rw [objectOf,whole] at run
  rw [← bytes']
  rw [same] at run table indexed ⊢
  cases entries with
  | nil =>
    cases run
    rw [List.flatMap_singleton]
    have single := table.single first List.mem_cons_self
    refine ⟨.direct single,?_⟩
    rw [single.single]
    simp
  | cons second entries =>
    obtain ⟨made,first',rest⟩ := Query.ends_bind.mp run
    cases made with
    | error e => cases rest
    | ok index' =>
      have two : 1 < (first :: second :: entries).length := by simp
      obtain ⟨listed,level⟩ := indexed two _ index' first'
      cases Except.ok.inj rest
      obtain ⟨under,next⟩ := IndirectObjectID_index (show index'.indirection.toNat < 255 by omega)
      refine ⟨.indirect under listed table,?_⟩
      rw [if_pos two,next]
      omega

theorem checkpointLocked_ends {order : List Nat} (sound : w.Sound f cr bytes) {result : Except WriteError ID}
    (run : (w.checkpointLocked index order).Ends (Kept cr) (.ok (w',result))) :
    w'.Sound f cr bytes ∧ w'.pending = [] ∧ w'.indirectIndex.length = w.indirectIndex.length ∧ w'.buffer = w.buffer ∧
      w'.currentPosition = w.currentPosition ∧ (w'.objectOf index).Ends (Kept cr) (.ok result) := by
  obtain ⟨waited,first,rest⟩ := Query.ends_bind.mp run
  obtain ⟨made,object,last⟩ := Query.ends_bind.mp rest
  obtain ⟨rfl,rfl⟩ := Prod.mk.inj (Query.ends_pure.mp last)
  obtain ⟨sound',idle,length,position,buffer⟩ := waitAsync_ends sound first
  exact ⟨sound',idle,length,buffer,position,object⟩

/-- A result is a checkpoint after all has been flushed. -/
theorem Result_ends {order : List Nat} (sound : w.Sound f cr bytes) {result : Except WriteError ID}
    (run : (w.Result index order).Ends (Kept cr) (.ok (w',result))) :
    w'.Sound f cr bytes ∧ ∀ oid, result = .ok oid → w'.pending = [] ∧ w'.buffer = [] ∧ w'.indirectIndex ≠ [] ∧
      w'.indirectIndex.length ≤ w.indirectIndex.length + 1 ∧ (w'.objectOf index).Ends (Kept cr) (.ok (.ok oid)) := by
  rw [Result] at run
  split at run
  next =>
    obtain ⟨⟨flushed,ended⟩,first,rest⟩ := Query.ends_bind.mp run
    obtain ⟨sound',_,_⟩ := flushBuffer_ends sound first
    obtain ⟨buffer,length,_⟩ := flushBuffer_keeps first
    cases ended with
    | error e =>
      obtain ⟨rfl,rfl⟩ := Prod.mk.inj (Query.ends_pure.mp rest)
      exact ⟨sound',nofun⟩
    | ok _ =>
      obtain ⟨sound'',idle,length',buffer',_,object⟩ := checkpointLocked_ends sound' rest
      refine ⟨sound'',?_⟩
      rintro oid rfl
      refine ⟨idle,buffer'.trans buffer,?_,by omega,object⟩
      rintro empty
      rw [empty,length] at length'
      simp at length'
  next ready =>
    obtain ⟨empty,begun⟩ : w.buffer = [] ∧ w.indirectIndex ≠ [] := by simpa using ready
    obtain ⟨sound',idle,length,buffer,_,object⟩ := checkpointLocked_ends sound run
    refine ⟨sound',?_⟩
    rintro oid rfl
    refine ⟨idle,buffer.trans empty,?_,by omega,object⟩
    rintro nothing
    rw [nothing] at length
    exact begun (List.eq_nil_of_length_eq_zero length.symm)

/-- A writer without a buffer has flushed all. -/
theorem Sound.flushed (sound : w.Sound f cr bytes) (whole : w.contentWriteError = none) (empty : w.buffer = []) :
    bytes.take w.currentPosition.toNat = bytes := by
  obtain ⟨chunks,filled⟩ := sound.filled whole
  rw [filled.position,filled.bytes,empty,List.append_nil,Int.toNat_natCast,List.take_length]

end ObjectWriter

end Chunks

end Vbe.Objects
