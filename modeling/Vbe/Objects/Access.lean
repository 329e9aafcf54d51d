import Vbe.Objects.Concatenation

/-! Reading and seeking in an object that can be opened. Every call is answered as a reader over the bytes in memory answers it. -/
namespace Vbe.Objects
open Vbe.Index (Bytes IDPrefix)
open Vbe.Library Vbe.Splitter

inductive Whence
  | start
  | current
  | ending
deriving DecidableEq

/-- `io.SeekStart`, `io.SeekCurrent` and `io.SeekEnd`. -/
def Whence.value : Whence → Int
  | start => 0
  | current => 1
  | ending => 2

inductive Access
  | Read (size : ℕ+)
  | Seek (offset : Int) (whence : Whence)
deriving DecidableEq

section Access
variable (openCurrentChunk : IndirectObjectEntry → Fetch Bytes)

namespace ObjectReader

def seekFetch (r : ObjectReader) (offset : Int) : Fetch (Reply × ObjectReader) :=
  if offset ≥ r.totalLength then
    return (.offset offset,{ r with currentChunkIndex := r.seekTable.length, currentChunkData := none, currentPosition := offset })
  else
    match findChunkIndexForOffset r.seekTable offset with
    | none => return (.failed,r)
    | some (index,st) =>
      let r := if index ≠ r.currentChunkIndex then { r with currentChunkData := none, currentChunkIndex := index } else r
      let position := (offset - st.Start).toNat
      match r.currentChunkData with
      | some _ => return (.offset offset,{ r with currentChunkPosition := position, currentPosition := offset })
      | none => do
        let data ← openCurrentChunk st
        return (.offset offset,{ r with currentChunkData := some data, currentChunkPosition := position, currentPosition := offset })

end ObjectReader

/-- The position that a seek asks for. -/
def Whence.target (whence : Whence) (offset position length : Int) : Int :=
  match whence with
  | .start => offset
  | .current => position + offset
  | .ending => length + offset

/-- `Seek` of a `bytes.Reader`, and of an object with an index. -/
def Reader.Seek (r : Reader) (offset : Int) (whence : Whence) : Fetch (Reply × Reader) :=
  match r with
  | .withData data position =>
    let abs := whence.target offset position data.length
    if abs < 0 then return (.failed,r) else return (.offset abs,.withData data abs.toNat)
  | .object r => do
    let (reply,r) ← r.seekFetch openCurrentChunk (whence.target offset r.currentPosition r.totalLength)
    return (reply,.object r)

end Access

section Calls
variable (f : Formats) (n : Nat)

def Reader.access (r : Reader) : Access → Fetch (Reply × Reader)
  | .Read size => do
    let (bytes,r) ← (level f (n + 1)).Read r size
    return (if bytes = [] then .eof else .bytes bytes,r)
  | .Seek offset whence => r.Seek (level f n).openCurrentChunk offset whence

def Reader.accesses (r : Reader) : List Access → Fetch (List Reply × Reader)
  | [] => return ([],r)
  | a :: rest => do
    let (reply,r) ← r.access f n a
    let (replies,r) ← r.accesses rest
    return (reply :: replies,r)

/-- A reader over bytes in memory, as `bytes.Reader`. -/
def accessInMemory (flat : Bytes) (position : Nat) : Access → Reply × Nat
  | .Read size =>
    let bytes := (flat.drop position).take size
    (if bytes = [] then .eof else .bytes bytes,position + bytes.length)
  | .Seek offset whence =>
    let abs := whence.target offset position flat.length
    if abs < 0 then (.failed,position) else (.offset abs,abs.toNat)

def accessesInMemory (flat : Bytes) : Nat → List Access → List Reply
  | _, [] => []
  | position, a :: rest => (accessInMemory flat position a).1 :: accessesInMemory flat (accessInMemory flat position a).2 rest

end Calls

section Fetched
variable {store : Index.ID → Except ContentError Bytes} {fetch : IndirectObjectEntry → Fetch Bytes} {content : IndirectObjectEntry → Bytes}

namespace ObjectReader

/-- A loop whose fetches succeed. -/
theorem readChunks_outcome {ahead : List IndirectObjectEntry} (opens : ∀ e ∈ ahead, (fetch e).outcome store = .ok (content e)) (r : ObjectReader)
    (remaining : Nat) {k : Nat} (enough : ahead.length ≤ k) : ∃ bytes r', (r.readChunks fetch ahead remaining).outcome store = .ok (bytes,r') ∧
      readLoop content ahead (List.replicate k true) r remaining = (some bytes,r') := by
  induction ahead generalizing r remaining k with
  | nil => exact ⟨[],r,rfl,rfl⟩
  | cons st ahead ih =>
    obtain ⟨data,position,k',opened,same,enough'⟩ : ∃ data position k', (r.openedChunk fetch st).outcome store = .ok (data,position) ∧
        r.opened content st (List.replicate k true) = some (data,position,List.replicate k' true) ∧ ahead.length ≤ k' := by
      rw [openedChunk,ObjectReader.opened.eq_def]
      cases r.currentChunkData with
      | some data => exact ⟨data,r.currentChunkPosition,k,rfl,rfl,by simp at enough; omega⟩
      | none =>
        obtain ⟨k,rfl⟩ : ∃ j, k = j + 1 := ⟨k - 1,by simp at enough; omega⟩
        refine ⟨content st,0,k,?_,rfl,by simpa using enough⟩
        rw [Query.outcome_bind,opens st List.mem_cons_self]
        rfl
    rw [readChunks,readLoop,same,Query.outcome_bind,opened]
    dsimp only [Bind.bind,Except.bind]
    split
    next => exact ⟨_,_,rfl,rfl⟩
    next =>
      obtain ⟨bytes,r',run,run'⟩ := ih (fun e member => opens e (List.mem_cons_of_mem _ member)) _ _ enough'
      refine ⟨_,r',?_,by rw [run']; rfl⟩
      exact Query.outcome_bind_ok.mpr ⟨_,run,rfl⟩

theorem Read_outcome {r : ObjectReader} (opens : ∀ e ∈ r.seekTable, (fetch e).outcome store = .ok (content e)) (size : ℕ+) :
    ∃ bytes r', (r.Read fetch size).outcome store = .ok (bytes,r') ∧
      r.ReadOnce content size (List.replicate r.seekTable.length true) = (if bytes = [] then .eof else .bytes bytes,r') := by
  rw [ObjectReader.Read,ObjectReader.ReadOnce]
  split
  next => exact ⟨[],r,rfl,rfl⟩
  next =>
    rw [if_neg size.ne_zero,if_neg size.ne_zero]
    obtain ⟨bytes,r',run,run'⟩ := @readChunks_outcome store fetch content (r.seekTable.drop r.currentChunkIndex)
      (fun e member => opens e (List.mem_of_mem_drop member)) r size r.seekTable.length (by simp)
    rw [run']
    refine ⟨bytes,r',run,?_⟩
    cases bytes with
    | nil => rfl
    | cons b bytes => rfl

theorem findFrom_member {seekTable : List IndirectObjectEntry} {offset : Int} {fuel left stop i : Nat} {st : IndirectObjectEntry}
    (found : findFrom seekTable offset fuel left stop = some (i,st)) : st ∈ seekTable := by
  induction fuel generalizing left stop with
  | zero => cases found
  | succ fuel ih =>
    rw [findFrom] at found
    split at found
    next =>
      dsimp only at found
      split at found
      next => cases found
      next st' there =>
        split at found
        next => exact ih found
        next =>
          split at found
          next => exact ih found
          next =>
            cases found
            exact List.mem_of_getElem? there
    next => cases found

/-- A seek whose fetch succeeds. -/
theorem seekFetch_outcome {r : ObjectReader} (opens : ∀ e ∈ r.seekTable, (fetch e).outcome store = .ok (content e)) (offset : Int) :
    (r.seekFetch fetch offset).outcome store = .ok (r.seekTo content offset true) := by
  rw [seekFetch,seekTo]
  split
  next => rfl
  next =>
    cases found : findChunkIndexForOffset r.seekTable offset with
    | none => rfl
    | some chunk =>
      obtain ⟨index,st⟩ := chunk
      dsimp only
      generalize (if index ≠ r.currentChunkIndex then
        { r with currentChunkData := none, currentChunkIndex := index } else r : ObjectReader) = moved
      cases moved.currentChunkData with
      | some data => rfl
      | none => exact Query.outcome_bind_ok.mpr ⟨_,opens st (findFrom_member found),rfl⟩

end ObjectReader

end Fetched

section Opened
variable {f : Formats} {cr : ContentReader} {flat : Bytes} {position n : Nat}

/-- A reader stands at a position of some bytes. -/
def Reader.At (f : Formats) (cr : ContentReader) (flat : Bytes) (position : Nat) : Reader → Prop
  | .withData data p => data = flat ∧ p = position
  | .object r => ∃ table, Table f cr table ∧ table.flatMap (entryBytes f cr) = flat ∧ r.Sound (entryBytes f cr) table ∧
      r.InPlace (entryBytes f cr) table position

theorem Table.opens {table : List IndirectObjectEntry} (listed : Table f cr table) :
    ∀ e ∈ table, ((level f (n + 1)).openCurrentChunk e).outcome cr.GetContent = .ok (entryBytes f cr e) := by
  intro e member
  have single := listed.single e member
  obtain ⟨payload,found,plain⟩ := single.payload
  have opens : Opens f cr False e.Object (entryBytes f cr e) n := opens_direct single.ContentID found plain n
  exact (opens.openCurrentChunk (listed.contiguous.bounds member).2.1).1

theorem inMemory_Read_access (flat : Bytes) (position : Nat) (size : ℕ+) (fetches : List Bool) :
    inMemory flat position (.Read size fetches) =
      ((accessInMemory flat position (.Read size)).1,((accessInMemory flat position (.Read size)).2 : Int)) := by
  have positive := size.pos
  rw [inMemory,accessInMemory]
  split
  next ended =>
    have none : flat.drop position = [] := List.drop_eq_nil_of_le (by omega)
    simp [none]
  next inside =>
    have length : ((flat.drop position).take size).length = min (size : Nat) (flat.length - position) := by simp
    have some : (flat.drop position).take size ≠ [] := by
      intro none
      rw [none,List.length_nil] at length
      omega
    rw [Int.toNat_natCast]
    dsimp only
    rw [if_neg some]
    push_cast
    rfl

namespace ObjectReader

theorem Sound.seekTo_answered {content : IndirectObjectEntry → Bytes} {table : List IndirectObjectEntry} {r : ObjectReader}
    (contiguous : Contiguous content 0 table) (sound : r.Sound content table) {offset : Int} (positive : 0 ≤ offset) :
    (r.seekTo content offset true).1 = .offset offset := by
  rw [ObjectReader.seekTo]
  split
  next => rfl
  next inside =>
    have total := sound.total
    have seeks := sound.seeks
    obtain ⟨i,e,search,_⟩ := @findChunkIndexForOffset_some content r.seekTable (seeks ▸ contiguous) offset positive (by rw [seeks]; omega)
    rw [search]
    dsimp only
    generalize (if i ≠ r.currentChunkIndex then
      { r with currentChunkData := none, currentChunkIndex := i } else r : ObjectReader) = moved
    cases moved.currentChunkData with
    | some data => rfl
    | none => rfl

theorem Sound.seekTo_refused {content : IndirectObjectEntry → Bytes} {table : List IndirectObjectEntry} {r : ObjectReader}
    (contiguous : Contiguous content 0 table) (sound : r.Sound content table) {offset : Int} (negative : offset < 0) :
    r.seekTo content offset true = (.failed,r) := by
  have total := sound.total
  have seeks := sound.seeks
  rw [ObjectReader.seekTo,if_neg (by omega)]
  rw [show ObjectReader.findChunkIndexForOffset r.seekTable offset = none from findFrom_none (seeks ▸ contiguous) negative _ _ _]

end ObjectReader

/-- One call is answered as in memory, and leaves the reader where the one in memory is. -/
theorem Reader.At.access {r : Reader} (here : r.At f cr flat position) (a : Access) :
    ∃ r', (r.access f (n + 1) a).outcome cr.GetContent = .ok ((accessInMemory flat position a).1,r') ∧
      r'.At f cr flat (accessInMemory flat position a).2 := by
  cases r with
  | withData data p =>
    obtain ⟨rfl,rfl⟩ := here
    cases a with
    | Read size => exact ⟨_,rfl,rfl,rfl⟩
    | Seek offset whence =>
      rw [Reader.access,Reader.Seek,accessInMemory]
      split
      next => exact ⟨_,rfl,rfl,rfl⟩
      next => exact ⟨_,rfl,rfl,rfl⟩
  | object r =>
    obtain ⟨table,listed,rfl,sound,place⟩ := here
    have opens : ∀ e ∈ r.seekTable, ((level f (n + 1)).openCurrentChunk e).outcome cr.GetContent = .ok (entryBytes f cr e) :=
      sound.seeks ▸ listed.opens
    cases a with
    | Read size =>
      obtain ⟨bytes,r',run,called⟩ := ObjectReader.Read_outcome opens size
      obtain ⟨sound',failed | ⟨reply,place'⟩⟩ := sound.ReadOnce place (Int.natCast_nonneg position) size.pos _ called
      · exact absurd failed.1 (by split <;> simp)
      · rw [inMemory_Read_access] at reply place'
        refine ⟨.object r',?_,table,listed,rfl,sound',place'⟩
        rw [Reader.access,← reply]
        refine Query.outcome_bind_ok.mpr ⟨(bytes,.object r'),?_,rfl⟩
        rw [level]
        exact Query.outcome_bind_ok.mpr ⟨_,run,rfl⟩
    | Seek offset whence =>
      have target : whence.target offset r.currentPosition r.totalLength =
          whence.target offset position (table.flatMap (entryBytes f cr)).length := by
        rw [place.current,sound.total]
      have sought := ObjectReader.seekFetch_outcome opens (whence.target offset r.currentPosition r.totalLength)
      rw [accessInMemory,← target,Reader.access,Reader.Seek]
      by_cases negative : whence.target offset r.currentPosition r.totalLength < 0
      · rw [sound.seekTo_refused listed.contiguous negative] at sought
        rw [if_pos negative]
        exact ⟨.object r,Query.outcome_bind_ok.mpr ⟨_,sought,rfl⟩,table,listed,rfl,sound,place⟩
      · have answered := sound.seekTo_answered listed.contiguous (not_lt.mp negative)
        generalize called : r.seekTo (entryBytes f cr) (whence.target offset r.currentPosition r.totalLength) true = result at sought answered
        obtain ⟨reply,r'⟩ := result
        obtain rfl : reply = _ := answered
        obtain ⟨sound',failed | ⟨_,_,place'⟩⟩ := sound.seekTo listed.contiguous _ true called
        · exact absurd failed.1 (by simp)
        · rw [if_neg negative]
          refine ⟨.object r',Query.outcome_bind_ok.mpr ⟨_,sought,rfl⟩,table,listed,rfl,sound',?_⟩
          rwa [Int.toNat_of_nonneg (not_lt.mp negative)]

/-- A run of calls. -/
theorem Reader.At.accesses {r : Reader} (here : r.At f cr flat position) (calls : List Access) :
    ∃ r', (r.accesses f (n + 1) calls).outcome cr.GetContent = .ok (accessesInMemory flat position calls,r') := by
  induction calls generalizing r position with
  | nil => exact ⟨r,rfl⟩
  | cons a calls ih =>
    obtain ⟨r1,first,there⟩ := here.access a
    obtain ⟨r2,rest⟩ := ih there
    exact ⟨r2,Query.outcome_bind_ok.mpr ⟨_,first,Query.outcome_bind_ok.mpr ⟨_,rest,rfl⟩⟩⟩

/-- An object is opened at its start. -/
theorem WholeObject.Open (inverts : f.json.Inverts) {oid : ID} (object : WholeObject f cr oid flat) :
    ∃ N, ∀ m, N ≤ m → ∃ r, (Open f m oid).outcome cr.GetContent = .ok r ∧ r.Length = flat.length ∧ r.At f cr flat 0 := by
  obtain ⟨N,opens⟩ := open_stored (object.stored inverts)
  refine ⟨N + 1,fun m enough => ?_⟩
  obtain ⟨m,rfl⟩ : ∃ k, m = k + 1 := ⟨m - 1,by omega⟩
  obtain ⟨r,opened,_,length,_⟩ := opens m (by omega) (-1) (.inl rfl)
  refine ⟨r,opened.1,length,?_⟩
  rcases object.cases with ⟨_,single⟩ | ⟨index,entries,indirect,listed,table,rfl⟩
  · rw [single.Open opened.1]
    exact ⟨rfl,rfl⟩
  · have run := opened.1
    rw [level_open_indirect f indirect] at run
    obtain ⟨loaded,load,rest⟩ := Query.outcome_bind_ok.mp run
    obtain rfl := loaded_index inverts listed table load
    have ends := List.getLast?_eq_some_getLast table.some
    rw [ends] at rest
    cases Except.ok.inj rest
    have tracks := Session.opened_tracks table.contiguous ends
    exact ⟨_,table,rfl,tracks.sound,tracks.place rfl rfl⟩

/-- Whatever objects are concatenated, the result is as long as they are together, and calls of its reader are answered as those
of a reader over their bytes in memory. -/
theorem Concatenate_reads (f : Formats) (newDefaultSplitter : Factory) (cr : ContentReader) (inverts : f.json.Inverts) {least most : Nat}
    (stable : newDefaultSplitter.Stable least most) (coarse : 2 ^ 16 ≤ least) {objectIDs : List ID} {pieces : ID → Bytes}
    (each : ∀ objectID ∈ objectIDs, Produced f newDefaultSplitter cr objectID (pieces objectID)) {oid : ID}
    (run : (Concatenate f newDefaultSplitter n objectIDs).Ends (Kept cr) (.ok oid)) :
    ∃ N, ∀ m, N ≤ m → ∃ r, (Open f m oid).outcome cr.GetContent = .ok r ∧
      r.Length = (objectIDs.map fun objectID => (pieces objectID).length).sum ∧
      ∀ calls, ∃ r', (r.accesses f m calls).outcome cr.GetContent = .ok (accessesInMemory (objectIDs.flatMap pieces) 0 calls,r') := by
  have pieces' := forall₂_pieces fun objectID member => (each objectID member).object inverts stable coarse
  have object := Concatenate_ends inverts stable coarse pieces' run
  rw [← List.flatMap_def] at object
  obtain ⟨N,opens⟩ := object.Open inverts
  refine ⟨N + 1,fun m enough => ?_⟩
  obtain ⟨m,rfl⟩ : ∃ k, m = k + 1 := ⟨m - 1,by omega⟩
  obtain ⟨r,opened,length,here⟩ := opens (m + 1) (by omega)
  exact ⟨r,opened,by rw [length,List.length_flatMap],fun calls => here.accesses calls⟩

end Opened

section Pair

open Classical in
/-- A decoder that reads to the end, and finds the index whose text it has read. -/
noncomputable def wholeDecoder : Decoder where
  State := Bytes
  NewDecoder := []
  next := fun _ => .inl 512
  read := fun read bytes => read ++ bytes
  eof := fun read => if known : ∃ entries : List IndirectObjectEntry, (∀ e ∈ entries, e.Encodable) ∧ encode entries = read then
    some known.choose else none
  room := by
    intro s size next
    cases Sum.inl.inj next
    decide

theorem wholeDecoder_run (text read : Bytes) : ∃ reads, wholeDecoder.run reads read text = some (wholeDecoder.eof (read ++ text),[]) := by
  induction size : text.length using Nat.strongRecOn generalizing text read with
  | ind size ih =>
    cases text with
    | nil => exact ⟨1,by rw [List.append_nil]; rfl⟩
    | cons b text =>
      obtain ⟨reads,run⟩ := ih ((b :: text).drop 512).length (by simp at size ⊢; omega) ((b :: text).drop 512) (read ++ (b :: text).take 512) rfl
      refine ⟨reads + 1,?_⟩
      rw [List.append_assoc,List.take_append_drop] at run
      exact run

theorem wholeDecoder_inverts : wholeDecoder.Inverts := by
  intro entries encodable
  obtain ⟨reads,run⟩ := wholeDecoder_run (encode entries) []
  have known : ∃ entries' : List IndirectObjectEntry, (∀ e ∈ entries', e.Encodable) ∧ encode entries' = encode entries :=
    ⟨entries,encodable,rfl⟩
  have found : wholeDecoder.eof (encode entries) = some entries := by
    obtain ⟨encodable',same⟩ := known.choose_spec
    have chosen : known.choose = entries := encode_injective encodable' encodable same
    exact (dif_pos known).trans (congrArg some chosen)
  rw [List.nil_append,found] at run
  exact ⟨[],reads,run⟩

noncomputable def pairFormats : Formats := ⟨wholeDecoder,fun _ => none⟩

def pairIndex : List IndirectObjectEntry := [⟨0,3,DirectObjectID ⟨0,[0xa1]⟩⟩,⟨3,0,DirectObjectID ⟨0,[0xa2]⟩⟩]

/-- Two objects, one of them empty, and the index of both. -/
def pairContents : ContentReader where
  ContentInfo := fun c => .ok ⟨[112],0,3,3,0,0,c,false,2,0⟩
  GetContent := fun c =>
    if c = ⟨0,[0xa1]⟩ then .ok [1,2,3]
    else if c = ⟨0,[0xa2]⟩ then .ok []
    else if c = ⟨120,[0x0b]⟩ then .ok (encode pairIndex)
    else .error .notFound

def pairPieces (oid : ID) : Bytes := if oid = DirectObjectID ⟨0,[0xa1]⟩ then [1,2,3] else []

/-- A writer with some bytes in its buffer. -/
def buffered (idPrefix : IDPrefix) (data : Bytes) : ObjectWriter (Fixed (2 ^ 17)) :=
  ⟨none,idPrefix,⟨data.length,2 ^ 17⟩,false,data,0,[],[],none⟩

section Short
variable {cr : ContentReader} {idPrefix : IDPrefix} {data : Bytes} {contentID : Index.ID}

theorem buffered_Write (short : data.length < 2 ^ 17) :
    ((buffered idPrefix []).Write data).Ends (Kept cr) (.ok (buffered idPrefix data,.ok ())) := by
  cases data with
  | nil => rfl
  | cons b data =>
    have whole : (Fixed (2 ^ 17)).NextSplitPoint (buffered idPrefix []).splitter (b :: data) = (⟨0 + (b :: data).length,2 ^ 17⟩,none) :=
      if_pos short
    rw [ObjectWriter.Write,List.length_cons,ObjectWriter.writeLoop]
    · rw [whole,buffered,buffered,Nat.zero_add]
      rfl
    · simp

/-- The result of a writer that has not flushed anything is a single content. -/
theorem buffered_result (valid : contentID.Valid) (found : cr.GetContent contentID = .ok data) :
    ∃ w', ((buffered idPrefix data).Result (indexObject (Fixed (2 ^ 17)) 0) []).Ends (Kept cr) (.ok (w',.ok (DirectObjectID contentID))) := by
  have flushed : (buffered idPrefix data).flushBuffer.Ends (Kept cr) (.ok (⟨none,idPrefix,⟨data.length,2 ^ 17⟩,false,[],0 + data.length,
      [⟨0,data.length,DirectObjectID contentID⟩],[],none⟩,.ok ())) := ⟨.supports true,trivial,.written (.ok contentID),⟨valid,found⟩,rfl⟩
  refine ⟨⟨none,idPrefix,⟨data.length,2 ^ 17⟩,false,[],0 + data.length,[⟨0,data.length,DirectObjectID contentID⟩],[],none⟩,?_⟩
  rw [ObjectWriter.Result,if_pos (.inr rfl)]
  exact Query.ends_bind.mpr ⟨_,flushed,rfl⟩

theorem indexObject_single {entries : List IndirectObjectEntry} (short : (encode entries).length < 2 ^ 17) (valid : contentID.Valid)
    (found : cr.GetContent contentID = .ok (encode entries)) :
    (indexObject (Fixed (2 ^ 17)) 1 entries idPrefix).Ends (Kept cr) (.ok (.ok (DirectObjectID contentID))) := by
  obtain ⟨w',run⟩ := @buffered_result cr idPrefix (encode entries) contentID valid found
  have wrote : (writeIndirectObject (Fixed (2 ^ 17)) (newWriter (Fixed (2 ^ 17)).make none idPrefix false) entries).Ends (Kept cr)
      (.ok (buffered idPrefix (encode entries),.ok ())) := by
    rw [writeIndirectObject,if_neg (by omega)]
    exact buffered_Write short
  rw [indexObject]
  exact Query.ends_bind.mpr ⟨_,wrote,Query.ends_bind.mpr ⟨_,run,rfl⟩⟩

end Short

theorem pair_produced : ∀ objectID ∈ [DirectObjectID ⟨0,[0xa1]⟩,DirectObjectID ⟨0,[0xa2]⟩],
    Produced pairFormats (Fixed (2 ^ 17)) pairContents objectID (pairPieces objectID) := by
  have used : Used pairFormats (Fixed (2 ^ 17)) pairContents (buffered [] []) [] :=
    .new (Fixed (2 ^ 17)).make (fun comp none => by cases none) [] false
  have wrote : Used pairFormats (Fixed (2 ^ 17)) pairContents (buffered [] [1,2,3]) [1,2,3] := used.Write (buffered_Write (by decide))
  intro objectID member
  rcases List.mem_pair.mp member with rfl | rfl
  · obtain ⟨w',run⟩ := @buffered_result pairContents [] [1,2,3] ⟨0,[0xa1]⟩ (by decide) rfl
    exact .result wrote run
  · obtain ⟨w',run⟩ := @buffered_result pairContents [] [] ⟨0,[0xa2]⟩ (by decide) rfl
    exact .result used run

theorem pairIndex_short : (encode pairIndex).length < 2 ^ 17 := by
  have bound : (encode pairIndex).length ≤ 128 * (pairIndex.length + 1) := by
    apply length_encode
    intro e member
    rcases List.mem_pair.mp member with rfl | rfl
    · exact ⟨⟨by decide,by decide,rfl,by decide⟩,by decide,by decide⟩
    · exact ⟨⟨by decide,by decide,rfl,by decide⟩,by decide,by decide⟩
  exact bound.trans_lt (by decide)

/-- An object of three bytes and the empty object. -/
theorem Concatenate_reads_pair : ∃ N, ∀ m, N ≤ m → ∃ r,
    (Open pairFormats m (IndirectObjectID (DirectObjectID ⟨120,[0x0b]⟩))).outcome pairContents.GetContent = .ok r ∧
      r.Length = ([DirectObjectID ⟨0,[0xa1]⟩,DirectObjectID ⟨0,[0xa2]⟩].map fun objectID => (pairPieces objectID).length).sum ∧
      ∀ calls, ∃ r', (r.accesses pairFormats m calls).outcome pairContents.GetContent =
        .ok (accessesInMemory ([DirectObjectID ⟨0,[0xa1]⟩,DirectObjectID ⟨0,[0xa2]⟩].flatMap pairPieces) 0 calls,r') := by
  have indexed : (indexObject (Fixed (2 ^ 17)) 1 pairIndex indirectContentPrefix).Ends (Kept pairContents)
      (.ok (.ok (DirectObjectID ⟨120,[0x0b]⟩))) := indexObject_single pairIndex_short (by decide) rfl
  have loop : ([DirectObjectID ⟨0,[0xa1]⟩,DirectObjectID ⟨0,[0xa2]⟩].foldlM
      (fun acc objectID => appendIndexEntriesForObject pairFormats 1 acc.1 acc.2 objectID) ([],0)).Ends (Kept pairContents)
      (.ok (pairIndex,3)) := by
    have opens : (reading (Open pairFormats 1 (DirectObjectID ⟨0,[0xa1]⟩))).Ends (Kept pairContents) (.ok (.withData [1,2,3] 0)) :=
      reading_ends.mpr rfl
    have opens' : (reading (Open pairFormats 1 (DirectObjectID ⟨0,[0xa2]⟩))).Ends (Kept pairContents) (.ok (.withData [] 0)) :=
      reading_ends.mpr rfl
    rw [List.foldlM_cons]
    exact Query.ends_bind.mpr ⟨_,Query.ends_bind.mpr ⟨_,opens,rfl⟩,Query.ends_bind.mpr ⟨_,Query.ends_bind.mpr ⟨_,opens',rfl⟩,rfl⟩⟩
  refine Concatenate_reads pairFormats (Fixed (2 ^ 17)) pairContents wholeDecoder_inverts (stable_fixed (Nat.two_pow_pos 17)) (by decide)
    pair_produced (n := 1) ?_
  exact Query.ends_bind.mpr ⟨_,loop,Query.ends_bind.mpr ⟨_,indexed,rfl⟩⟩

end Pair

end Vbe.Objects
