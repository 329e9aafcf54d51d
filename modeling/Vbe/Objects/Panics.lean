import Vbe.Objects.Access

/-! Writers and concatenations do not panic, and how many entries an index gets. A splitter cuts whatever is written to it into
segments that are not too short, so that an index has few of them. -/
namespace Vbe.Objects
open Vbe.Index (Bytes IDPrefix)
open Vbe.Library Vbe.Library.Cuts Vbe.Splitter

/-- The errors that stand for a panic. -/
def WriteError.Panics (e : WriteError) : Prop := e = .panicked ∨ e = .appending .panicked

section Cutting
variable {factory : Factory} {least most : Nat} {s : factory.State} {last position n : Nat} {data : Bytes} {buffers : List Bytes}

/-- The buffers are cut into segments that are not too short, the first of which began before. -/
def Cut (least : Nat) (s : factory.State) (last position : Nat) (buffers : List Bytes) : Prop :=
  ∃ points, feedAll factory.NextSplitPoint s position buffers = some points ∧ ∀ n ∈ segments last points, least ≤ n

theorem cut_nil : Cut least s last position ([] :: buffers) ↔ Cut least s last position buffers := by
  have first : feed factory.NextSplitPoint s position [] = some (s,[]) := by rw [feed,if_pos rfl]
  simp [Cut,feedAll,first]

/-- A buffer without a split point is kept for the next one. -/
theorem Cut.none (cut : Cut least s last position (data :: buffers)) (some : data ≠ []) (none : (factory.NextSplitPoint s data).2 = none) :
    Cut least (factory.NextSplitPoint s data).1 last (position + data.length) buffers := by
  have first : feed factory.NextSplitPoint s position data = .some ((factory.NextSplitPoint s data).1,[]) := by
    rw [feed,if_neg some,none]
  simpa [Cut,feedAll,first] using cut

/-- A split point is inside the buffer, and the segment up to it not too short. -/
theorem Cut.some (cut : Cut least s last position (data :: buffers)) (some : data ≠ []) (found : (factory.NextSplitPoint s data).2 = .some n) :
    0 < n ∧ n ≤ data.length ∧ least ≤ position + n - last ∧
      Cut least (factory.NextSplitPoint s data).1 (position + n) (position + n) (data.drop n :: buffers) := by
  obtain ⟨points,fed,wide⟩ := cut
  rw [feedAll,feed,if_neg some,found] at fed
  dsimp only at fed
  split at fed
  next => contradiction
  next s' cuts first =>
    split at first
    next inside =>
      obtain ⟨⟨s'',rest⟩,later,same⟩ := Option.map_eq_some_iff.mp first
      obtain ⟨rfl,rfl⟩ := Prod.mk.inj same
      obtain ⟨more,after,rfl⟩ := Option.map_eq_some_iff.mp fed
      have first := wide _ List.mem_cons_self
      refine ⟨inside.1,inside.2,first,rest ++ more,?_,fun n member => wide n (List.mem_cons_of_mem _ member)⟩
      rw [feedAll,later]
      dsimp only
      rw [List.length_drop,show position + n + (data.length - n) = position + data.length by omega,after]
      rfl
    next => contradiction

end Cutting

theorem Table.length_encode {f : Formats} {cr : ContentReader} {entries : List IndirectObjectEntry} (table : Table f cr entries)
    (short : (entries.flatMap (entryBytes f cr)).length < 2 ^ 63) : (encode entries).length ≤ 128 * (entries.length + 1) := by
  refine Objects.length_encode fun e member => ⟨table.encodable e member,?_⟩
  obtain ⟨start,_,ending⟩ := table.contiguous.bounds member
  have nonneg := (table.encodable e member).length
  omega

namespace ObjectWriter
variable {f : Formats} {cr : ContentReader} {factory : Factory} {least most : Nat} {w w' : ObjectWriter factory} {data : Bytes}

section Flushes

theorem prepareAndWriteContentChunk_avoids (bad : WriteError → Prop) (compressor : Option Compressor) (idPrefix : IDPrefix) (data : Bytes) :
    (prepareAndWriteContentChunk compressor idPrefix data).Avoids (Kept cr) bad := by
  refine .ask fun reply _ => ?_
  cases reply with
  | supports supported =>
    dsimp only
    split
    next => exact Query.avoids_pure
    next =>
      refine .ask fun reply _ => ?_
      split
      next => exact Query.avoids_pure
      next => exact Query.avoids_pure
  | _ => exact Query.avoids_pure

/-- What a write in the background leaves as it is. -/
structure Unmoved (w w' : ObjectWriter factory) : Prop where
  splitter : w'.splitter = w.splitter
  buffer : w'.buffer = w.buffer
  position : w'.currentPosition = w.currentPosition
  length : w'.indirectIndex.length = w.indirectIndex.length

theorem chunkWritten_unmoved (w : ObjectWriter factory) (chunkID : Nat) (result : Except WriteError ID) : Unmoved w (w.chunkWritten chunkID result) := by
  cases result with
  | ok oid => exact ⟨rfl,rfl,rfl,List.length_modify ..⟩
  | error e => exact ⟨rfl,rfl,rfl,rfl⟩

/-- Where a flush leaves the writer. -/
structure Flushed (w w' : ObjectWriter factory) : Prop where
  splitter : w'.splitter = w.splitter
  buffer : w'.buffer = []
  position : w'.currentPosition = w.currentPosition + w.buffer.length
  length : w'.indirectIndex.length = w.indirectIndex.length + 1

theorem flushBuffer_avoids (bad : WriteError → Prop) : w.flushBuffer.Avoids (Kept cr) bad := by
  rw [flushBuffer]
  dsimp only
  split
  next => exact Query.avoids_pure
  next => exact (prepareAndWriteContentChunk_avoids bad _ _ _).bind fun _ _ => Query.avoids_pure

theorem flushBuffer_flushed {result : Except WriteError Unit} (run : w.flushBuffer.Ends (Kept cr) (.ok (w',result))) : Flushed w w' := by
  rw [flushBuffer] at run
  dsimp only at run
  split at run
  next =>
    obtain ⟨rfl,_⟩ := Prod.mk.inj (Query.ends_pure.mp run)
    exact ⟨rfl,rfl,rfl,List.length_append⟩
  next =>
    obtain ⟨written,_,rest⟩ := Query.ends_bind.mp run
    obtain ⟨rfl,_⟩ := Prod.mk.inj (Query.ends_pure.mp rest)
    obtain ⟨splitter,buffer,position,length⟩ := chunkWritten_unmoved { w with
      indirectIndex := w.indirectIndex ++ [⟨w.currentPosition,w.buffer.length,EmptyID⟩]
      currentPosition := w.currentPosition + w.buffer.length
      buffer := [] } w.indirectIndex.length written
    exact ⟨splitter,buffer,position,length.trans List.length_append⟩

end Flushes

section Writes

/-- A writer that has been given as many bytes, and is about to be given some more, and then any others. -/
structure Ready (least total : Nat) (w : ObjectWriter factory) (data : Bytes) : Prop where
  nonneg : 0 ≤ w.currentPosition
  place : w.currentPosition + w.buffer.length = total
  cut : ∀ buffers, Cut least w.splitter w.currentPosition.toNat (w.currentPosition.toNat + w.buffer.length) (data :: buffers)
  count : (w.indirectIndex.length * least : Int) ≤ w.currentPosition

variable {total : Nat}

theorem Ready.given (ready : w.Ready least total []) (data : Bytes) : w.Ready least total data :=
  ⟨ready.nonneg,ready.place,fun buffers => cut_nil.mp (ready.cut (data :: buffers)),ready.count⟩

theorem Ready.unmoved (ready : w.Ready least total data) (unmoved : Unmoved w w') : w'.Ready least total data := by
  obtain ⟨splitter,buffer,position,length⟩ := unmoved
  constructor
  · rw [position]
    exact ready.nonneg
  · rw [position,buffer]
    exact ready.place
  · rw [position,splitter,buffer]
    exact ready.cut
  · rw [position,length]
    exact ready.count

theorem ready_new (stable : factory.Stable least most) {splitter : factory.State} (pooled : factory.Pooled splitter) (compressor : Option Compressor)
    (idPrefix : IDPrefix) (async : Bool) : (newWriter splitter compressor idPrefix async).Ready least 0 [] := by
  refine ⟨le_rfl,rfl,fun buffers => cut_nil.mpr ?_,by simp [newWriter]⟩
  obtain ⟨points,found,wide⟩ := stable.segments _ pooled buffers
  exact ⟨points,found,fun n member => (wide n member).1⟩

theorem Ready.write {rounds : Nat} (ready : w.Ready least total data) (enough : data.length ≤ rounds) (bad : WriteError → Prop) :
    (writeLoop rounds w data).Avoids (Kept cr) bad ∧
      ∀ w', (writeLoop rounds w data).Ends (Kept cr) (.ok (w',.ok ())) → w'.Ready least (total + data.length) [] := by
  induction rounds generalizing w data total with
  | zero =>
    obtain rfl := List.eq_nil_of_length_eq_zero (Nat.le_zero.mp enough)
    refine ⟨Query.avoids_pure,fun w' run => ?_⟩
    obtain ⟨rfl,_⟩ := Prod.mk.inj (Query.ends_pure.mp run)
    exact ready
  | succ rounds ih =>
    cases data with
    | nil =>
      refine ⟨Query.avoids_pure,fun w' run => ?_⟩
      obtain ⟨rfl,_⟩ := Prod.mk.inj (Query.ends_pure.mp run)
      exact ready
    | cons b data =>
      have some : b :: data ≠ [] := List.cons_ne_nil b data
      rw [writeLoop]
      swap
      · simp
      have none := fun buffers => (ready.cut buffers).none some
      have cut := fun n buffers => @Cut.some _ _ _ _ _ n _ _ (ready.cut buffers) some
      generalize factory.NextSplitPoint w.splitter (b :: data) = next at none cut
      obtain ⟨splitter,_ | n⟩ := next
      · refine ⟨Query.avoids_pure,fun w' run => ?_⟩
        obtain ⟨rfl,_⟩ := Prod.mk.inj (Query.ends_pure.mp run)
        refine ⟨ready.nonneg,?_,fun buffers => cut_nil.mpr ?_,ready.count⟩
        · have place := ready.place
          rw [List.length_append]
          push_cast
          omega
        have later := none buffers rfl
        simpa only [List.length_append,Nat.add_assoc] using later
      · obtain ⟨positive,inside,wide,_⟩ := cut n [] rfl
        dsimp only
        rw [if_neg (Nat.not_lt.mpr inside)]
        have taken : ((b :: data).take n).length = n := List.length_take_of_le inside
        have flushed (w' : ObjectWriter factory) (run : Flushed { w with splitter := splitter, buffer := w.buffer ++ (b :: data).take n } w') :
            w'.Ready least (total + n) ((b :: data).drop n) := by
          obtain ⟨splitter',buffer,position,length⟩ := run
          have nonneg := ready.nonneg
          have total := ready.place
          have count := ready.count
          simp only [List.length_append,taken] at splitter' position length
          have place : w'.currentPosition.toNat = w.currentPosition.toNat + w.buffer.length + n := by omega
          refine ⟨by omega,?_,fun buffers => ?_,?_⟩
          · rw [position,buffer]
            push_cast
            rw [List.length_nil]
            omega
          · rw [place,buffer,splitter']
            exact (cut n buffers rfl).2.2.2
          · rw [length,position]
            push_cast
            rw [add_mul,one_mul]
            omega
        have shorter : ((b :: data).drop n).length ≤ rounds := by
          rw [List.length_drop]
          omega
        constructor
        · refine (flushBuffer_avoids bad).bind ?_
          rintro ⟨w'',ended⟩ run
          cases ended with
          | error e => exact Query.avoids_pure
          | ok _ => exact (ih (flushed w'' (flushBuffer_flushed run)) shorter).1
        · intro w' run
          obtain ⟨⟨w'',ended⟩,first,rest⟩ := Query.ends_bind.mp run
          cases ended with
          | error e => cases rest
          | ok _ =>
            have ready' := (ih (flushed w'' (flushBuffer_flushed first)) shorter).2 w' rest
            rwa [List.length_drop,Nat.add_assoc,Nat.add_sub_cancel' inside] at ready'

end Writes

section Background
variable {bad : WriteError → Prop}

theorem complete_avoids (w : ObjectWriter factory) (k : Nat) : (w.complete k).Avoids (Kept cr) bad := by
  rw [complete]
  split
  next => exact Query.avoids_pure
  next => exact (prepareAndWriteContentChunk_avoids bad _ _ _).bind fun _ _ => Query.avoids_pure

theorem complete_unmoved {k : Nat} (run : (w.complete k).Ends (Kept cr) (.ok w')) : Unmoved w w' := by
  rw [complete] at run
  split at run
  next =>
    obtain rfl := Query.ends_pure.mp run
    exact ⟨rfl,rfl,rfl,rfl⟩
  next chunkID _ _ =>
    obtain ⟨written,_,rest⟩ := Query.ends_bind.mp run
    obtain rfl := Query.ends_pure.mp rest
    obtain ⟨splitter,buffer,position,length⟩ := chunkWritten_unmoved { w with pending := w.pending.eraseIdx k } chunkID written
    exact ⟨splitter,buffer,position,length⟩

theorem Unmoved.trans {w'' : ObjectWriter factory} (first : Unmoved w w') (rest : Unmoved w' w'') : Unmoved w w'' :=
  ⟨rest.splitter.trans first.splitter,rest.buffer.trans first.buffer,rest.position.trans first.position,rest.length.trans first.length⟩

theorem waitAsync_avoids (other : ¬ bad .unfinished) (w : ObjectWriter factory) (order : List Nat) :
    (w.waitAsync order).Avoids (Kept cr) bad := by
  refine .bind ?_ fun w' _ => ?_
  · induction order generalizing w with
    | nil => exact Query.avoids_pure
    | cons k order ih =>
      rw [List.foldlM_cons]
      exact (complete_avoids w k).bind fun w' _ => ih w'
  · split
    next => exact Query.avoids_pure
    next => exact Query.avoids_fail other

theorem waitAsync_unmoved {order : List Nat} (run : (w.waitAsync order).Ends (Kept cr) (.ok w')) : Unmoved w w' := by
  obtain ⟨waited,loop,rest⟩ := Query.ends_bind.mp run
  split at rest
  next =>
    obtain rfl := Query.ends_pure.mp rest
    clear run rest
    induction order generalizing w with
    | nil =>
      obtain rfl := Query.ends_pure.mp loop
      exact ⟨rfl,rfl,rfl,rfl⟩
    | cons k order ih =>
      rw [List.foldlM_cons] at loop
      obtain ⟨next,first,later⟩ := Query.ends_bind.mp loop
      exact (complete_unmoved first).trans (ih later)
  next => exact absurd rest Query.ends_fail

theorem checkpointLocked_unmoved {index : List IndirectObjectEntry → IDPrefix → Action (Except WriteError ID)} {order : List Nat}
    {result : Except WriteError ID} (run : (w.checkpointLocked index order).Ends (Kept cr) (.ok (w',result))) : Unmoved w w' := by
  obtain ⟨waited,first,rest⟩ := Query.ends_bind.mp run
  obtain ⟨made,_,last⟩ := Query.ends_bind.mp rest
  obtain ⟨rfl,_⟩ := Prod.mk.inj (Query.ends_pure.mp last)
  exact waitAsync_unmoved first

end Background

section Results
variable {index : List IndirectObjectEntry → IDPrefix → Action (Except WriteError ID)} {bytes : Bytes}

/-- The text of the index of a writer. -/
theorem Sound.length_encode (sound : w.Sound f cr bytes) (whole : w.contentWriteError = none) (idle : w.pending = [])
    (begun : w.indirectIndex ≠ []) (short : bytes.length < 2 ^ 63) : (encode w.indirectIndex).length ≤ 128 * (w.indirectIndex.length + 1) := by
  obtain ⟨chunks,filled⟩ := sound.filled whole
  obtain ⟨table,held⟩ := filled.table idle begun
  refine table.length_encode ?_
  rw [held]
  exact (List.length_take_le' _ _).trans_lt short

/-- How the index of a writer is made, if at all. -/
theorem objectOf_avoids {bad : WriteError → Prop} (sound : w.Sound f cr bytes) (idle : w.pending = []) (short : bytes.length < 2 ^ 63)
    (indexed : ∀ entries idPrefix, (encode entries).length ≤ 128 * (w.indirectIndex.length + 1) → (index entries idPrefix).Avoids (Kept cr) bad) :
    (w.objectOf index).Avoids (Kept cr) bad := by
  rw [objectOf]
  split
  next => exact Query.avoids_pure
  next whole =>
    split
    next => exact Query.avoids_pure
    next => exact Query.avoids_pure
    next entries _ _ =>
      refine .bind (indexed _ _ (sound.length_encode whole idle ?_ short)) fun _ _ => Query.avoids_pure
      intro none
      simp_all

theorem checkpointLocked_avoids {bad : WriteError → Prop} (other : ¬ bad .unfinished) (sound : w.Sound f cr bytes) (short : bytes.length < 2 ^ 63)
    (indexed : ∀ entries idPrefix, (encode entries).length ≤ 128 * (w.indirectIndex.length + 1) → (index entries idPrefix).Avoids (Kept cr) bad)
    (order : List Nat) : (w.checkpointLocked index order).Avoids (Kept cr) bad := by
  refine (waitAsync_avoids other w order).bind fun w' run => ?_
  obtain ⟨sound',idle,length,_⟩ := waitAsync_ends sound run
  refine (objectOf_avoids sound' idle short fun entries idPrefix few => indexed entries idPrefix ?_).bind fun _ _ => Query.avoids_pure
  rwa [length] at few

theorem Result_avoids {bad : WriteError → Prop} (other : ¬ bad .unfinished) (sound : w.Sound f cr bytes) (short : bytes.length < 2 ^ 63)
    (indexed : ∀ entries idPrefix, (encode entries).length ≤ 128 * (w.indirectIndex.length + 2) → (index entries idPrefix).Avoids (Kept cr) bad)
    (order : List Nat) : (w.Result index order).Avoids (Kept cr) bad := by
  rw [Result]
  split
  next =>
    refine (flushBuffer_avoids bad).bind ?_
    rintro ⟨w',ended⟩ run
    cases ended with
    | error e => exact Query.avoids_pure
    | ok _ =>
      refine checkpointLocked_avoids other (flushBuffer_ends sound run).1 short (fun entries idPrefix few => indexed entries idPrefix ?_) order
      rwa [(flushBuffer_flushed run).length] at few
  next => exact checkpointLocked_avoids other sound short (fun entries idPrefix few => indexed entries idPrefix (by omega)) order

end Results

end ObjectWriter

section Errors
variable {factory : Factory} {α : Type}

/-- The errors of writes: a chunk could not be compressed, or not written. -/
def Proper (result : Except WriteError α) : Prop := ∀ e, result = .error e → e = .compression ∨ e = .writeContent

theorem proper_ok {a : α} : Proper (.ok a : Except WriteError α) := fun _ => nofun

theorem proper_map {β : Type} {g : α → β} {result : Except WriteError α} (proper : Proper result) : Proper (result.map g) := by
  cases result with
  | ok a => exact proper_ok
  | error e =>
    rintro _ ⟨⟩
    exact proper e rfl

namespace ObjectWriter

def Proper (w : ObjectWriter factory) : Prop := ∀ e, w.contentWriteError = some e → e = .compression ∨ e = .writeContent

variable {w : ObjectWriter factory}

theorem prepareAndWriteContentChunk_proper (compressor : Option Compressor) (idPrefix : IDPrefix) (data : Bytes) :
    (prepareAndWriteContentChunk compressor idPrefix data).Always Objects.Proper := by
  have written {e : WriteError} (kind : e = .compression ∨ e = .writeContent) : Objects.Proper (.error e : Except WriteError ID) := by
    rintro _ ⟨⟩
    exact kind
  intro reply
  cases reply with
  | supports supported =>
    dsimp only
    split
    next => exact written (.inl rfl)
    next =>
      intro reply
      dsimp only
      split
      next => exact proper_ok
      next => exact written (.inr rfl)
  | _ => exact written (.inr rfl)

theorem chunkWritten_proper (clean : w.Proper) {result : Except WriteError ID} (proper : Objects.Proper result) (chunkID : Nat) :
    (w.chunkWritten chunkID result).Proper := by
  cases result with
  | ok oid => exact clean
  | error e =>
    rintro _ ⟨⟩
    exact proper e rfl

theorem flushBuffer_proper (clean : w.Proper) : w.flushBuffer.Always fun r => r.1.Proper ∧ Objects.Proper r.2 := by
  rw [flushBuffer]
  dsimp only
  split
  next => exact ⟨clean,proper_ok⟩
  next =>
    refine (prepareAndWriteContentChunk_proper _ _ _).bind fun result proper => ⟨?_,proper_map proper⟩
    exact chunkWritten_proper (w := { w with
      indirectIndex := w.indirectIndex ++ [⟨w.currentPosition,w.buffer.length,EmptyID⟩]
      currentPosition := w.currentPosition + w.buffer.length
      buffer := [] }) clean proper _

theorem writeLoop_proper {rounds : Nat} {data : Bytes} (clean : w.Proper) :
    (writeLoop rounds w data).Always fun r => r.1.Proper ∧ Objects.Proper r.2 := by
  induction rounds generalizing w data with
  | zero =>
    cases data with
    | nil => exact ⟨clean,proper_ok⟩
    | cons b data => exact True.intro
  | succ rounds ih =>
    cases data with
    | nil => exact ⟨clean,proper_ok⟩
    | cons b data =>
      rw [writeLoop]
      swap
      · simp
      generalize factory.NextSplitPoint w.splitter (b :: data) = next
      obtain ⟨splitter,_ | n⟩ := next
      · exact ⟨clean,proper_ok⟩
      · dsimp only
        split
        next => exact True.intro
        next =>
          refine Query.Always.bind (flushBuffer_proper
            (w := { w with splitter := splitter, buffer := w.buffer ++ (b :: data).take n }) clean) ?_
          rintro ⟨w',flushed⟩ ⟨clean',proper⟩
          cases flushed with
          | error e =>
            refine ⟨clean',?_⟩
            rintro _ ⟨⟩
            exact proper e rfl
          | ok _ => exact ih clean'

theorem complete_proper (clean : w.Proper) (k : Nat) : (w.complete k).Always Proper := by
  rw [complete]
  split
  next => exact clean
  next =>
    refine (prepareAndWriteContentChunk_proper _ _ _).bind fun result proper => ?_
    exact chunkWritten_proper (w := { w with pending := w.pending.eraseIdx k }) clean proper _

theorem waitAsync_proper (clean : w.Proper) (order : List Nat) : (w.waitAsync order).Always Proper := by
  have waited : (order.foldlM complete w).Always Proper := by
    induction order generalizing w with
    | nil => exact clean
    | cons k order ih =>
      rw [List.foldlM_cons]
      exact (complete_proper clean k).bind fun _ => ih
  refine waited.bind fun w' clean' => ?_
  split
  next => exact clean'
  next => exact True.intro

variable {index : List IndirectObjectEntry → IDPrefix → Action (Except WriteError ID)}

theorem objectOf_proper (indexed : ∀ entries idPrefix, (index entries idPrefix).Always Objects.Proper) (clean : w.Proper) :
    (w.objectOf index).Always Objects.Proper := by
  rw [objectOf]
  split
  next e failed =>
    rintro _ ⟨⟩
    exact clean e failed
  next =>
    split
    next => exact proper_ok
    next => exact proper_ok
    next => exact (indexed _ _).bind fun _ proper => proper_map proper

theorem checkpointLocked_proper (indexed : ∀ entries idPrefix, (index entries idPrefix).Always Objects.Proper) (clean : w.Proper)
    (order : List Nat) : (w.checkpointLocked index order).Always fun r => Objects.Proper r.2 :=
  (waitAsync_proper clean order).bind fun _ clean' => (objectOf_proper indexed clean').bind fun _ proper => proper

theorem Result_proper (indexed : ∀ entries idPrefix, (index entries idPrefix).Always Objects.Proper) (clean : w.Proper) (order : List Nat) :
    (w.Result index order).Always fun r => Objects.Proper r.2 := by
  rw [Result]
  split
  next =>
    refine (flushBuffer_proper clean).bind ?_
    rintro ⟨w',flushed⟩ ⟨clean',proper⟩
    cases flushed with
    | error e =>
      rintro _ ⟨⟩
      exact proper e rfl
    | ok _ => exact checkpointLocked_proper indexed clean' order
  next => exact checkpointLocked_proper indexed clean order

end ObjectWriter

theorem indexObject_proper (n : Nat) (entries : List IndirectObjectEntry) (idPrefix : IDPrefix) :
    (indexObject factory n entries idPrefix).Always Proper := by
  induction n generalizing entries idPrefix with
  | zero => exact True.intro
  | succ n ih =>
    rw [indexObject]
    have clean : (newWriter factory.make none idPrefix false).Proper := by
      intro e none
      simp [newWriter] at none
    have wrote : (writeIndirectObject factory (newWriter factory.make none idPrefix false) entries).Always fun r => r.1.Proper ∧ Proper r.2 := by
      rw [writeIndirectObject]
      split
      next => exact True.intro
      next => exact ObjectWriter.writeLoop_proper clean
    refine wrote.bind ?_
    rintro ⟨iw,written⟩ ⟨clean',proper⟩
    cases written with
    | error e =>
      rintro _ ⟨⟩
      exact proper e rfl
    | ok _ => exact (ObjectWriter.Result_proper ih clean' []).bind fun _ proper' => proper'

end Errors

section Indexes
variable {cr : ContentReader} {factory : Factory} {least most : Nat} {bad : WriteError → Prop}

/-- The index of a writer that holds no more than 2^63 bytes is short. -/
theorem ObjectWriter.Ready.index_short {w : ObjectWriter factory} {total : Nat} (ready : w.Ready least total []) (coarse : 2 ^ 16 ≤ least)
    (short : total < 2 ^ 63) {length : Nat} (few : length ≤ 128 * (w.indirectIndex.length + 2)) : length < 2 ^ 63 := by
  have count := ready.count
  have place := ready.place
  have scaled : w.indirectIndex.length * 2 ^ 16 ≤ w.indirectIndex.length * least := Nat.mul_le_mul_left _ coarse
  have bound : w.indirectIndex.length * least ≤ total := by
    zify
    omega
  omega

theorem indexObject_avoids (f : Formats) (stable : factory.Stable least most) (coarse : 2 ^ 16 ≤ least) (other : ¬ bad .unfinished) (n : Nat)
    (entries : List IndirectObjectEntry) (idPrefix : IDPrefix) (short : (encode entries).length < 2 ^ 63) :
    (indexObject factory n entries idPrefix).Avoids (Kept cr) bad := by
  induction n generalizing entries idPrefix with
  | zero => exact Query.avoids_fail other
  | succ n ih =>
    have ready := (ObjectWriter.ready_new stable .made none idPrefix false).given (encode entries)
    rw [indexObject]
    have written := (@ObjectWriter.Ready.write cr factory least _ _ _ _ ready le_rfl bad).1
    refine .bind ?_ ?_
    · rw [writeIndirectObject,if_neg (Nat.not_le.mpr short)]
      exact written
    · rintro ⟨iw,written⟩ run
      rw [writeIndirectObject,if_neg (Nat.not_le.mpr short)] at run
      cases written with
      | error e => exact Query.avoids_pure
      | ok _ =>
        obtain ⟨sound,_,_⟩ := ObjectWriter.writeLoop_ends (@newWriter_sound f cr factory factory.make none (by simp) idPrefix false) run
        have ready' := (ready.write le_rfl bad).2 iw run
        refine .bind (ObjectWriter.Result_avoids other sound short (fun entries' idPrefix' few => ih _ _ ?_) []) fun _ _ => Query.avoids_pure
        exact ready'.index_short coarse (by simpa using short) few

end Indexes

section Parts
variable (f : Formats) (cr : ContentReader)

/-- An object whose index, if it has one, has few entries. -/
structure Part (least : Nat) (oid : ID) (bytes : Bytes) : Prop where
  object : WholeObject f cr oid bytes
  few : ∀ index n ndx, oid.IndexObjectID = some index → ((level f n).LoadIndexObject f n index).outcome cr.GetContent = .ok ndx →
    ndx.length * least ≤ bytes.length + least

variable {f cr} {factory newDefaultSplitter : Factory} {least least' most most' : Nat} {oid : ID} {bytes : Bytes}

/-- What a writer results in. -/
theorem ObjectWriter.Result_part {w w' : ObjectWriter factory} (inverts : f.json.Inverts) (stable : newDefaultSplitter.Stable least' most')
    (coarse : 2 ^ 16 ≤ least') (sound : w.Sound f cr bytes) (ready : w.Ready least bytes.length []) {n : Nat} {order : List Nat}
    (run : (w.Result (indexObject newDefaultSplitter n) order).Ends (Kept cr) (.ok (w',.ok oid))) : Part f cr least oid bytes := by
  obtain ⟨sound',ended⟩ := ObjectWriter.Result_ends sound run
  obtain ⟨idle,empty,begun,more,object⟩ := ended _ rfl
  have whole := ObjectWriter.objectOf_whole object
  have all := sound'.flushed whole empty
  obtain ⟨chunks,filled⟩ := sound'.filled whole
  obtain ⟨table,held⟩ := filled.table idle begun
  have made := (ObjectWriter.objectOf_ends sound' idle begun (by decide) (fun _ _ _ run => indexObject_spec stable coarse run) object).1
  rw [all] at made
  refine ⟨made,fun index n ndx indirect load => ?_⟩
  have count : w'.indirectIndex.length * least ≤ bytes.length + least := by
    have fits : w.indirectIndex.length * least ≤ bytes.length := by
      have count := ready.count
      have place := ready.place
      zify
      omega
    calc w'.indirectIndex.length * least ≤ (w.indirectIndex.length + 1) * least := Nat.mul_le_mul_right _ more
      _ ≤ bytes.length + least := by rw [Nat.add_mul,Nat.one_mul]; omega
  rw [ObjectWriter.objectOf,whole] at object
  dsimp only at object
  split at object
  next none => exact absurd none begun
  next entry one =>
    cases object
    have single := table.single entry (by rw [one]; exact List.mem_cons_self)
    rw [IndexObjectID_of_ContentID single.ContentID] at indirect
    simp at indirect
  next =>
    obtain ⟨made,indexed,rest⟩ := Query.ends_bind.mp object
    cases made with
    | error e => cases rest
    | ok listed =>
      cases rest
      obtain ⟨object',level⟩ := indexObject_spec (f := f) stable coarse indexed
      have own := (IndirectObjectID_index (show listed.indirection.toNat < 255 by omega)).1
      obtain rfl : index = listed := Option.some.inj (indirect.symm.trans own)
      rwa [loaded_index inverts object' table load]

section Reading

theorem reading_avoids {α : Type} {p : Fetch α} {bad : WriteError → Prop}
    (stuck : ∀ e, p.outcome cr.GetContent = .error e → ¬ bad (.appending e)) : (reading p).Avoids (Kept cr) bad := by
  induction p with
  | answer a => exact Query.avoids_pure
  | fail e => exact Query.avoids_fail (stuck e rfl)
  | ask contentID next ih =>
    rw [reading]
    refine .ask fun reply allowed => ?_
    cases reply with
    | content result =>
      obtain rfl : result = cr.GetContent contentID := allowed
      exact ih _ stuck
    | supports supported => exact allowed.elim
    | written result => exact allowed.elim

/-- A read that succeeds within a larger bound can only run out of its own. -/
theorem unfinished_of_refines {α : Type} {p q : Fetch α} (refines : q.Refines .unfinished p) {store : Index.ID → Except ContentError Bytes} {a : α}
    (done : q.outcome store = .ok a) {e : ObjectError} (failed : p.outcome store = .error e) : e = .unfinished := by
  by_contra other
  have same := (refines store (by rw [failed]; exact fun same => other (Except.error.inj same))).1
  rw [done,failed] at same
  contradiction

theorem WholeObject.Open_unfinished (inverts : f.json.Inverts) (object : WholeObject f cr oid bytes) {n : Nat} {e : ObjectError}
    (failed : (Objects.Open f n oid).outcome cr.GetContent = .error e) : e = .unfinished := by
  obtain ⟨N,opens⟩ := object.Open inverts
  obtain ⟨r,done,_⟩ := opens (max n N) (Nat.le_max_right _ _)
  exact unfinished_of_refines ((level_refines f (Nat.le_max_left n N)).1 oid (-1)) done failed

theorem LoadIndexObject_unfinished (inverts : f.json.Inverts) {index : ID} {entries : List IndirectObjectEntry}
    (listed : WholeObject f cr index (encode entries)) (table : Table f cr entries) {n : Nat} {e : ObjectError}
    (failed : ((level f n).LoadIndexObject f n index).outcome cr.GetContent = .error e) : e = .unfinished := by
  obtain ⟨left,reads,decoded⟩ := inverts entries table.encodable
  obtain ⟨N,opens⟩ := open_stored (listed.stored inverts)
  have loads := (opens (max N reads) (Nat.le_max_left _ _)).LoadIndexObject
    (run_more decoded (show reads ≤ max N reads + 1 by omega)) nofun
  have raised : n ≤ max n (max N reads + 1) := Nat.le_max_left _ _
  obtain ⟨opens',reads'⟩ := level_refines f raised
  refine unfinished_of_refines (LoadIndexObject_refines f opens' reads' raised index) (a := entries) ?_ failed
  obtain ⟨opens'',reads''⟩ := level_refines f (Nat.le_max_right n (max N reads + 1))
  exact (LoadIndexObject_refines f opens'' reads'' (Nat.le_max_right n _) index).answered loads.1

end Reading

section Concatenate
variable {bad : WriteError → Prop} {entries : List IndirectObjectEntry} {n : Nat}

theorem appendIndexEntriesForObject_avoids (inverts : f.json.Inverts) (object : WholeObject f cr oid bytes) (harmless : ¬ bad (.appending .unfinished))
    (startingLength : Int) : (appendIndexEntriesForObject f n entries startingLength oid).Avoids (Kept cr) bad := by
  rw [appendIndexEntriesForObject]
  rcases object.cases with ⟨direct,_⟩ | ⟨index,_,indirect,listed,table,_⟩
  · rw [direct]
    refine .bind (reading_avoids fun e failed => ?_) fun _ _ => Query.avoids_pure
    rwa [object.Open_unfinished inverts failed]
  · rw [indirect]
    refine .bind (reading_avoids fun e failed => ?_) fun _ _ => Query.avoids_pure
    rwa [LoadIndexObject_unfinished inverts listed table failed]

theorem appendIndexEntriesForObject_few (part : Part f cr least oid bytes) {startingLength : Int} {result : List IndirectObjectEntry × Int}
    (run : (appendIndexEntriesForObject f n entries startingLength oid).Ends (Kept cr) (.ok result)) :
    result.1.length * least ≤ entries.length * least + (bytes.length + least) := by
  rw [appendIndexEntriesForObject] at run
  cases indirect : oid.IndexObjectID with
  | none =>
    rw [indirect] at run
    obtain ⟨r,_,rest⟩ := Query.ends_bind.mp run
    obtain rfl := Query.ends_pure.mp rest
    simp only [appendIndexEntries,List.length_append,List.map_singleton,List.length_singleton]
    rw [Nat.add_mul,Nat.one_mul]
    omega
  | some index =>
    rw [indirect] at run
    obtain ⟨ndx,loaded,rest⟩ := Query.ends_bind.mp run
    obtain rfl := Query.ends_pure.mp rest
    have few := part.few index n ndx indirect (reading_ends.mp loaded)
    simp only [appendIndexEntries,List.length_append,List.length_map]
    rw [Nat.add_mul]
    omega

/-- The loop over the objects. -/
theorem concatenatedEntries_few {objectIDs : List ID} {pieces : List Bytes} (each : List.Forall₂ (Part f cr least) objectIDs pieces)
    {startingLength : Int} {result : List IndirectObjectEntry × Int}
    (run : (objectIDs.foldlM (fun acc objectID => appendIndexEntriesForObject f n acc.1 acc.2 objectID)
      (entries,startingLength)).Ends (Kept cr) (.ok result)) :
    result.1.length * least ≤ entries.length * least + (pieces.flatten.length + objectIDs.length * least) := by
  induction each generalizing entries startingLength with
  | nil =>
    obtain rfl := Query.ends_pure.mp run
    simp
  | cons part _ ih =>
    rw [List.foldlM_cons] at run
    obtain ⟨⟨next,total⟩,first,rest⟩ := Query.ends_bind.mp run
    have one := appendIndexEntriesForObject_few part first
    have more := ih rest
    rw [List.flatten_cons,List.length_append,List.length_cons,Nat.add_mul,Nat.one_mul]
    dsimp only at one more
    omega

theorem concatenatedEntries_avoids (inverts : f.json.Inverts) {objectIDs : List ID} {pieces : List Bytes}
    (each : List.Forall₂ (WholeObject f cr) objectIDs pieces) (harmless : ¬ bad (.appending .unfinished)) (startingLength : Int) :
    (objectIDs.foldlM (fun acc objectID => appendIndexEntriesForObject f n acc.1 acc.2 objectID) (entries,startingLength)).Avoids (Kept cr) bad := by
  induction each generalizing entries startingLength with
  | nil => exact Query.avoids_pure
  | cons object _ ih =>
    rw [List.foldlM_cons]
    exact (appendIndexEntriesForObject_avoids inverts object harmless startingLength).bind fun next _ => ih next.2

theorem coarsened {coarse fine count parts total : Nat} (less : fine ≤ coarse) (few : count * coarse ≤ total + parts * coarse) :
    count * fine ≤ total + parts * fine := by
  rcases Nat.le_total count parts with small | large
  · exact (Nat.mul_le_mul_right fine small).trans (Nat.le_add_left _ _)
  · obtain ⟨more,rfl⟩ := Nat.exists_eq_add_of_le large
    have scaled := Nat.mul_le_mul_left more less
    rw [Nat.add_mul] at few ⊢
    omega

/-- Objects that writers have made, of fewer than 2^63 bytes and not too many, are concatenated without a panic. -/
theorem Concatenate_avoids (inverts : f.json.Inverts) (stable : newDefaultSplitter.Stable least' most') (coarse' : 2 ^ 16 ≤ least')
    (coarse : 2 ^ 16 ≤ least) {objectIDs : List ID} {pieces : List Bytes} (each : List.Forall₂ (Part f cr least) objectIDs pieces)
    (short : pieces.flatten.length < 2 ^ 63) (few : objectIDs.length ≤ 2 ^ 55) :
    (Concatenate f newDefaultSplitter n objectIDs).Avoids (Kept cr) WriteError.Panics := by
  match objectIDs, each, few with
  | [], _, _ => exact Query.avoids_fail (by simp [WriteError.Panics])
  | [objectID], _, _ => exact Query.avoids_pure
  | first :: second :: objectIDs, each, few =>
    have objects := each.imp fun _ _ part => part.object
    refine .bind (concatenatedEntries_avoids inverts objects (by simp [WriteError.Panics]) 0) ?_
    rintro ⟨concatenatedEntries,total⟩ loop
    have count := concatenatedEntries_few each loop
    obtain ⟨listing,length⟩ := concatenatedEntries_ends inverts objects Listing.nil loop
    rw [List.nil_append] at listing
    have scaled : concatenatedEntries.length * 2 ^ 16 ≤ pieces.flatten.length + (first :: second :: objectIDs).length * 2 ^ 16 :=
      coarsened coarse (by simpa using count)
    have encoded : (encode concatenatedEntries).length ≤ 128 * (concatenatedEntries.length + 1) := by
      refine Table.length_encode ⟨?_,listing.contiguous,listing.single⟩ (by rwa [listing.bytes])
      rintro rfl
      simp at length
    refine .bind (indexObject_avoids f stable coarse' (by simp [WriteError.Panics]) n _ _ (by omega)) ?_
    rintro (e | concatID) run
    · refine Query.avoids_fail ?_
      rcases (indexObject_proper n _ _).ends run e rfl with rfl | rfl
      · simp [WriteError.Panics]
      · simp [WriteError.Panics]
    · exact Query.avoids_pure

end Concatenate

end Parts

end Vbe.Objects
