import Vbe.Objects.Written

/-! Concatenations. The index of a concatenation lists the entries of the indexes of its parts one after the other, and how many
levels of indexes it needs is bounded, as a level is far shorter than the one below it. -/
namespace Vbe.Objects
open Vbe.Index (Bytes IDPrefix)
open Vbe.Library Vbe.Library.Cuts Vbe.Splitter

section Levels
variable {f : Formats} {cr : ContentReader} {factory : Factory} {least most : Nat}

namespace ObjectWriter
variable {w w' : ObjectWriter factory}

/-- Every chunk that is flushed in a `Write` uses up as many bytes as a segment has at least. -/
theorem writeLoop_count {rounds position : Nat} {data : Bytes} {s : factory.State} {points : List Nat}
    (cut : feed factory.NextSplitPoint w.splitter position data = some (s,points)) (wide : ∀ n ∈ segments position points, least ≤ n)
    (run : (writeLoop rounds w data).Ends (Kept cr) (.ok (w',.ok ()))) :
    ∃ flushed, w'.indirectIndex.length = w.indirectIndex.length + flushed ∧ flushed * least ≤ data.length ∧
      (w.async = false → w'.pending = w.pending) := by
  induction rounds generalizing w position data points with
  | zero =>
    cases data with
    | nil =>
      obtain ⟨rfl,_⟩ := Prod.mk.inj (Query.ends_pure.mp run)
      exact ⟨0,rfl,by simp,fun _ => rfl⟩
    | cons b data => exact absurd run Query.ends_fail
  | succ rounds ih =>
    cases data with
    | nil =>
      obtain ⟨rfl,_⟩ := Prod.mk.inj (Query.ends_pure.mp run)
      exact ⟨0,rfl,by simp,fun _ => rfl⟩
    | cons b data =>
      rw [feed,if_neg (List.cons_ne_nil b data)] at cut
      rw [writeLoop] at run
      swap
      · simp
      generalize factory.NextSplitPoint w.splitter (b :: data) = next at run cut
      obtain ⟨splitter,none | n⟩ := next
      · obtain ⟨rfl,_⟩ := Prod.mk.inj (Query.ends_pure.mp run)
        exact ⟨0,rfl,by simp,fun _ => rfl⟩
      · dsimp only at run cut
        split at run
        next => exact absurd run Query.ends_fail
        next =>
          split at cut
          next inside =>
            obtain ⟨⟨s',rest⟩,later,same⟩ := Option.map_eq_some_iff.mp cut
            obtain ⟨rfl,rfl⟩ := Prod.mk.inj same
            have segment : least ≤ n := by simpa using wide (position + n - position) List.mem_cons_self
            obtain ⟨⟨flushed,ended⟩,first,more⟩ := Query.ends_bind.mp run
            obtain ⟨_,length,pending,async,kept⟩ := flushBuffer_keeps first
            cases ended with
            | error e => cases more
            | ok _ =>
              obtain ⟨count,total,fits,idle⟩ := ih (kept ▸ later) (fun n member => wide n (List.mem_cons_of_mem _ member)) more
              refine ⟨count + 1,?_,?_,fun sync => (idle (async.trans sync)).trans (pending sync)⟩
              · rw [total,length]
                simp only
                omega
              · rw [List.length_drop] at fits
                rw [Nat.add_mul,Nat.one_mul]
                omega
          next => contradiction

end ObjectWriter

/-- A first buffer is cut into segments that are not too short. -/
theorem Stable.cut {data : Bytes} (stable : factory.Stable least most) :
    ∃ s points, feed factory.NextSplitPoint factory.make 0 data = some (s,points) ∧ ∀ n ∈ segments 0 points, least ≤ n := by
  obtain ⟨points,found,wide⟩ := stable.segments _ .made [data]
  rw [Factory.splitPoints,feedAll] at found
  cases fed : feed factory.NextSplitPoint factory.make 0 data with
  | none =>
    rw [fed] at found
    contradiction
  | some result =>
    rw [fed] at found
    obtain ⟨rest,last,same⟩ := Option.map_eq_some_iff.mp found
    cases last
    rw [List.append_nil] at same
    subst same
    exact ⟨_,_,rfl,fun n member => (wide n member).1⟩

theorem newWriter_sound (splitter : factory.State) {compressor : Option Compressor} (inverts : ∀ comp ∈ compressor, comp.Inverts f)
    (idPrefix : IDPrefix) (async : Bool) : (newWriter splitter compressor idPrefix async).Sound f cr [] := by
  refine ⟨inverts,fun _ => ⟨[],rfl,rfl,rfl,?_,?_⟩⟩
  · intro i e chunk found
    simp [newWriter] at found
  · intro p member
    simp [newWriter] at member

/-- An index lies at most as many levels deep as its text is long: a level has less than a 128th of the bytes of the one
below it. -/
theorem indexObject_ends (stable : factory.Stable least most) (coarse : 2 ^ 16 ≤ least) {n levels : Nat} (few : levels < 8)
    {entries : List IndirectObjectEntry} {idPrefix : IDPrefix} (short : (encode entries).length < 2 ^ (16 + 7 * levels)) {oid : ID}
    (run : (indexObject factory n entries idPrefix).Ends (Kept cr) (.ok (.ok oid))) :
    WholeObject f cr oid (encode entries) ∧ oid.indirection.toNat ≤ levels := by
  induction n generalizing levels entries idPrefix oid with
  | zero => exact absurd run Query.ends_fail
  | succ n ih =>
    rw [indexObject] at run
    obtain ⟨⟨iw,ended⟩,wrote,rest⟩ := Query.ends_bind.mp run
    cases ended with
    | error e => cases rest
    | ok _ =>
      obtain ⟨⟨w,made⟩,result,last⟩ := Query.ends_bind.mp rest
      obtain rfl := Query.ends_pure.mp last
      rw [writeIndirectObject] at wrote
      split at wrote
      next => exact absurd wrote Query.ends_fail
      next fits =>
        generalize encode entries = text at short wrote fits ⊢
        obtain ⟨sound,_,_⟩ := ObjectWriter.writeLoop_ends (@newWriter_sound f cr factory factory.make none (by simp) idPrefix false) wrote
        obtain ⟨s,points,cut,wide⟩ := Stable.cut stable
        obtain ⟨flushed,total,enough,_⟩ := ObjectWriter.writeLoop_count cut wide wrote
        obtain ⟨sound',finished⟩ := ObjectWriter.Result_ends sound result
        obtain ⟨idle,empty,begun,more,object⟩ := finished _ rfl
        have whole := ObjectWriter.objectOf_whole object
        have count : w.indirectIndex.length ≤ flushed + 1 := by
          rw [total] at more
          simpa [newWriter] using more
        have scaled : flushed * 2 ^ 16 ≤ text.length := (Nat.mul_le_mul_left _ coarse).trans enough
        have power : 2 ^ (16 + 7 * levels) = 2 ^ 16 * 2 ^ (7 * levels) := Nat.pow_add 2 16 (7 * levels)
        have deep (two : 1 < w.indirectIndex.length) : 0 < levels := by
          by_contra zero
          obtain rfl : levels = 0 := by omega
          omega
        have all := sound'.flushed whole empty
        rw [List.nil_append] at all sound'
        obtain ⟨object',level⟩ := ObjectWriter.objectOf_ends (f := f) sound' idle begun (show levels - 1 < 255 by omega)
          (fun two idPrefix' oid' run' => by
            obtain ⟨k,rfl⟩ := Nat.exists_eq_add_of_lt (deep two)
            rw [Nat.zero_add] at *
            obtain ⟨chunks,filled⟩ := sound'.filled whole
            obtain ⟨table,bytes⟩ := filled.table idle begun
            have bounds : (encode w.indirectIndex).length ≤ 128 * (w.indirectIndex.length + 1) := by
              refine length_encode fun e member => ⟨table.encodable e member,?_⟩
              obtain ⟨start,_,ending⟩ := table.contiguous.bounds member
              have nonneg := (table.encodable e member).length
              rw [bytes,all] at ending
              omega
            have power' : 2 ^ (16 + 7 * k) = 2 ^ 9 * 2 ^ (7 * (k + 1)) := by
              rw [← Nat.pow_add]
              congr 1
              omega
            refine ih (by omega) ?_ run'
            rw [Nat.add_sub_cancel]
            omega) object
        rw [all] at object'
        refine ⟨object',level.trans ?_⟩
        split
        next two =>
          have := deep two
          omega
        next => omega

end Levels

section Produced
variable (f : Formats) (newDefaultSplitter : Factory) (cr : ContentReader)

/-- A writer that has been used, and what has been written to it. -/
inductive Used {factory : Factory} : ObjectWriter factory → Bytes → Prop
  | new (splitter : factory.State) {compressor : Option Compressor} (inverts : ∀ comp ∈ compressor, comp.Inverts f)
      (idPrefix : IDPrefix) (async : Bool) : Used (newWriter splitter compressor idPrefix async) []
  | Write {w w' : ObjectWriter factory} {bytes data : Bytes} {result : Except WriteError Unit} (used : Used w bytes)
      (run : (w.Write data).Ends (Kept cr) (.ok (w',result))) : Used w' (bytes ++ data)
  | complete {w w' : ObjectWriter factory} {bytes : Bytes} {k : Nat} (used : Used w bytes)
      (run : (w.complete k).Ends (Kept cr) (.ok w')) : Used w' bytes
  | Checkpoint {w w' : ObjectWriter factory} {bytes : Bytes} {n : Nat} {order : List Nat} {result : Except WriteError ID}
      (used : Used w bytes) (run : (w.checkpointLocked (indexObject newDefaultSplitter n) order).Ends (Kept cr) (.ok (w',result))) :
      Used w' bytes
  | Result {w w' : ObjectWriter factory} {bytes : Bytes} {n : Nat} {order : List Nat} {result : Except WriteError ID}
      (used : Used w bytes) (run : (w.Result (indexObject newDefaultSplitter n) order).Ends (Kept cr) (.ok (w',result))) :
      Used w' bytes

/-- The objects that writers, their checkpoints and concatenations produce, and their bytes. Those of a checkpoint are what has
been flushed, if anything has. -/
inductive Produced : ID → Bytes → Prop
  | checkpoint {factory : Factory} {w w' : ObjectWriter factory} {bytes : Bytes} {n : Nat} {order : List Nat} {oid : ID}
      (used : Used f newDefaultSplitter cr w bytes) (begun : w.indirectIndex ≠ [])
      (run : (w.checkpointLocked (indexObject newDefaultSplitter n) order).Ends (Kept cr) (.ok (w',.ok oid))) :
      Produced oid (bytes.take w.currentPosition.toNat)
  | result {factory : Factory} {w w' : ObjectWriter factory} {bytes : Bytes} {n : Nat} {order : List Nat} {oid : ID}
      (used : Used f newDefaultSplitter cr w bytes)
      (run : (w.Result (indexObject newDefaultSplitter n) order).Ends (Kept cr) (.ok (w',.ok oid))) : Produced oid bytes
  | concatenation {objectIDs : List ID} {pieces : ID → Bytes} {n : Nat} {oid : ID}
      (each : ∀ objectID ∈ objectIDs, Produced objectID (pieces objectID))
      (run : (Concatenate f newDefaultSplitter n objectIDs).Ends (Kept cr) (.ok oid)) : Produced oid (objectIDs.flatMap pieces)

end Produced

section Reading
variable {f : Formats} {cr : ContentReader}

/-- Reads are answered from the contents that are there. -/
theorem reading_ends {α : Type} {p : Fetch α} {a : α} : (reading p).Ends (Kept cr) (.ok a) ↔ p.outcome cr.GetContent = .ok a := by
  induction p with
  | answer b =>
    rw [reading]
    constructor
    · rintro ⟨⟩
      rfl
    · rintro ⟨⟩
      rfl
  | fail e =>
    rw [reading]
    exact ⟨fun run => absurd run Query.ends_fail,nofun⟩
  | ask contentID next ih =>
    rw [reading,Query.outcome_ask,← ih]
    constructor
    · rintro ⟨reply,allowed,rest⟩
      cases reply with
      | content result =>
        obtain rfl : result = cr.GetContent contentID := allowed
        exact rest
      | supports supported => exact allowed.elim
      | written result => exact allowed.elim
    · intro rest
      exact ⟨.content (cr.GetContent contentID),rfl,rest⟩

theorem WholeObject.cases {oid : ID} {bytes : Bytes} (object : WholeObject f cr oid bytes) :
    (oid.IndexObjectID = none ∧ Single f cr oid bytes) ∨ ∃ index entries, oid.IndexObjectID = some index ∧
      WholeObject f cr index (encode entries) ∧ Table f cr entries ∧ bytes = entries.flatMap (entryBytes f cr) := by
  cases object with
  | direct single => exact .inl ⟨IndexObjectID_of_ContentID single.ContentID,single⟩
  | indirect indirect listed table => exact .inr ⟨_,_,indirect,listed,table,rfl⟩

theorem Single.Open {oid : ID} {bytes : Bytes} (single : Single f cr oid bytes) {n : Nat} {r : Reader}
    (run : (Open f n oid).outcome cr.GetContent = .ok r) : r = .withData bytes 0 := by
  cases n with
  | zero => cases run
  | succ n =>
    obtain ⟨payload,found,plain⟩ := single.payload
    rw [Objects.Open,level_open_direct f (IndexObjectID_of_ContentID single.ContentID)] at run
    have gives := newRawReader_gives single.ContentID found plain (k := -1) (.inl rfl)
    exact Except.ok.inj (run.symm.trans gives.1)

/-- An index that can be loaded is the one that was written. -/
theorem loaded_index (inverts : f.json.Inverts) {index : ID} {entries loaded : List IndirectObjectEntry}
    (listed : WholeObject f cr index (encode entries)) (table : Table f cr entries) {n : Nat}
    (run : ((level f n).LoadIndexObject f n index).outcome cr.GetContent = .ok loaded) : loaded = entries := by
  obtain ⟨left,reads,decoded⟩ := inverts entries table.encodable
  obtain ⟨N,opens⟩ := open_stored (listed.stored inverts)
  have loads := (opens (max N reads) (Nat.le_max_left _ _)).LoadIndexObject
    (run_more decoded (show reads ≤ max N reads + 1 by omega)) nofun
  exact LoadIndexObject_unique loads.1 run

end Reading

section Concatenated
variable {f : Formats} {cr : ContentReader}

/-- Entries that list some bytes from the start. -/
structure Listing (f : Formats) (cr : ContentReader) (entries : List IndirectObjectEntry) (bytes : Bytes) : Prop where
  contiguous : Contiguous (entryBytes f cr) 0 entries
  single : ∀ e ∈ entries, Single f cr e.Object (entryBytes f cr e)
  bytes : entries.flatMap (entryBytes f cr) = bytes

theorem Listing.nil : Listing f cr [] [] := ⟨trivial,by simp,rfl⟩

theorem Contiguous.append {content : IndirectObjectEntry → Bytes} {start : Int} {before after : List IndirectObjectEntry}
    (first : Contiguous content start before) (rest : Contiguous content (start + (before.flatMap content).length) after) :
    Contiguous content start (before ++ after) := by
  induction before generalizing start with
  | nil => simpa using rest
  | cons e before ih =>
    obtain ⟨place,length,first⟩ := first
    refine ⟨place,length,ih first ?_⟩
    rw [List.flatMap_cons,List.length_append] at rest
    rw [length]
    push_cast at rest
    rwa [← add_assoc] at rest

/-- Entries that are moved by some distance. -/
theorem Contiguous.moved {start distance : Int} {entries : List IndirectObjectEntry} (contiguous : Contiguous (entryBytes f cr) start entries) :
    Contiguous (entryBytes f cr) (start + distance) (entries.map fun inc => { inc with Start := inc.Start + distance }) := by
  induction entries generalizing start with
  | nil => trivial
  | cons e entries ih =>
    obtain ⟨place,length,rest⟩ := contiguous
    refine ⟨congrArg (· + distance) place,length,?_⟩
    have next := ih rest
    rwa [add_right_comm] at next

theorem Contiguous.sum {content : IndirectObjectEntry → Bytes} {start : Int} {entries : List IndirectObjectEntry}
    (contiguous : Contiguous content start entries) : (entries.map IndirectObjectEntry.Length).sum = (entries.flatMap content).length := by
  induction entries generalizing start with
  | nil => rfl
  | cons e entries ih =>
    obtain ⟨_,length,rest⟩ := contiguous
    rw [List.map_cons,List.sum_cons,ih rest,length,List.flatMap_cons,List.length_append]
    push_cast
    rfl

theorem Listing.append {entries incoming : List IndirectObjectEntry} {bytes more : Bytes} (listing : Listing f cr entries bytes)
    (next : Listing f cr incoming more) :
    Listing f cr (appendIndexEntries entries bytes.length incoming).1 (bytes ++ more) ∧
      (appendIndexEntries entries bytes.length incoming).2 = (bytes ++ more).length := by
  have moved : (incoming.map fun inc => { inc with Start := inc.Start + (bytes.length : Int) }).flatMap (entryBytes f cr) = more := by
    rw [List.flatMap_map]
    exact next.bytes
  refine ⟨⟨listing.contiguous.append ?_,fun e member => ?_,?_⟩,?_⟩
  · rw [listing.bytes]
    exact next.contiguous.moved
  · rcases List.mem_append.mp member with old | new
    · exact listing.single e old
    · obtain ⟨inc,inside,rfl⟩ := List.mem_map.mp new
      exact next.single inc inside
  · rw [appendIndexEntries,List.flatMap_append,listing.bytes,moved]
  · rw [appendIndexEntries,next.contiguous.sum,next.bytes,List.length_append]
    push_cast
    rfl

theorem appendIndexEntriesForObject_ends (inverts : f.json.Inverts) {oid : ID} {bytes more : Bytes} (object : WholeObject f cr oid more)
    {entries : List IndirectObjectEntry} (listing : Listing f cr entries bytes) {n : Nat} {result : List IndirectObjectEntry × Int}
    (run : (appendIndexEntriesForObject f n entries bytes.length oid).Ends (Kept cr) (.ok result)) :
    Listing f cr result.1 (bytes ++ more) ∧ result.2 = (bytes ++ more).length ∧ entries.length < result.1.length := by
  rw [appendIndexEntriesForObject] at run
  rcases object.cases with ⟨direct,single⟩ | ⟨index,own,indirect,listed,table,rfl⟩
  · rw [direct] at run
    obtain ⟨r,opened,rest⟩ := Query.ends_bind.mp run
    obtain rfl := Query.ends_pure.mp rest
    obtain rfl := single.Open (reading_ends.mp opened)
    have same : entryBytes f cr ⟨0,(Reader.withData more 0).Length,oid⟩ = more := by
      rw [entryBytes,single.held]
      rfl
    have next : Listing f cr [⟨0,(Reader.withData more 0).Length,oid⟩] more := by
      refine ⟨⟨rfl,by rw [same]; rfl,trivial⟩,fun e member => ?_,by rw [List.flatMap_singleton,same]⟩
      obtain rfl := List.mem_singleton.mp member
      rw [same]
      exact single
    obtain ⟨listing',total⟩ := listing.append next
    exact ⟨listing',total,by simp [appendIndexEntries]⟩
  · rw [indirect] at run
    obtain ⟨ndx,loaded,rest⟩ := Query.ends_bind.mp run
    obtain rfl := Query.ends_pure.mp rest
    obtain rfl := loaded_index inverts listed table (reading_ends.mp loaded)
    obtain ⟨listing',total⟩ := listing.append ⟨table.contiguous,table.single,rfl⟩
    refine ⟨listing',total,?_⟩
    have some := List.length_pos_iff.mpr table.some
    simp only [appendIndexEntries,List.length_append,List.length_map]
    omega

/-- The loop over the objects. -/
theorem concatenatedEntries_ends (inverts : f.json.Inverts) {objectIDs : List ID} {pieces : List Bytes}
    (each : List.Forall₂ (WholeObject f cr) objectIDs pieces) {entries : List IndirectObjectEntry} {bytes : Bytes}
    (listing : Listing f cr entries bytes) {n : Nat} {result : List IndirectObjectEntry × Int}
    (run : (objectIDs.foldlM (fun acc objectID => appendIndexEntriesForObject f n acc.1 acc.2 objectID)
      (entries,(bytes.length : Int))).Ends (Kept cr) (.ok result)) :
    Listing f cr result.1 (bytes ++ pieces.flatten) ∧ entries.length + objectIDs.length ≤ result.1.length := by
  induction each generalizing entries bytes with
  | nil =>
    obtain rfl := Query.ends_pure.mp run
    rw [List.flatten_nil,List.append_nil]
    exact ⟨listing,le_rfl⟩
  | cons object _ ih =>
    rw [List.foldlM_cons] at run
    obtain ⟨⟨next,total⟩,first,rest⟩ := Query.ends_bind.mp run
    obtain ⟨listing',same,more⟩ := appendIndexEntriesForObject_ends inverts object listing first
    obtain rfl : total = _ := same
    obtain ⟨listing'',length⟩ := ih listing' rest
    rw [List.append_assoc] at listing''
    refine ⟨listing'',?_⟩
    rw [List.length_cons]
    dsimp only at more length
    omega

variable {newDefaultSplitter : Factory} {least most : Nat}

theorem indexObject_spec (stable : newDefaultSplitter.Stable least most) (coarse : 2 ^ 16 ≤ least) {n : Nat}
    {entries : List IndirectObjectEntry} {idPrefix : IDPrefix} {oid : ID}
    (run : (indexObject newDefaultSplitter n entries idPrefix).Ends (Kept cr) (.ok (.ok oid))) :
    WholeObject f cr oid (encode entries) ∧ oid.indirection.toNat ≤ 7 := by
  refine indexObject_ends stable coarse (by decide) ?_ run
  cases n with
  | zero => exact absurd run Query.ends_fail
  | succ n =>
    rw [indexObject] at run
    obtain ⟨_,wrote,_⟩ := Query.ends_bind.mp run
    rw [writeIndirectObject] at wrote
    split at wrote
    next => exact absurd wrote Query.ends_fail
    next fits => omega

/-- What `Concatenate` returns is an object that holds the bytes of the objects one after the other. -/
theorem Concatenate_ends (inverts : f.json.Inverts) (stable : newDefaultSplitter.Stable least most) (coarse : 2 ^ 16 ≤ least)
    {objectIDs : List ID} {pieces : List Bytes} (each : List.Forall₂ (WholeObject f cr) objectIDs pieces) {n : Nat}
    {oid : ID} (run : (Concatenate f newDefaultSplitter n objectIDs).Ends (Kept cr) (.ok oid)) :
    WholeObject f cr oid pieces.flatten := by
  match objectIDs, pieces, each, run with
  | [], _, _, run => exact absurd run Query.ends_fail
  | [objectID], [piece], .cons object .nil, run =>
    obtain rfl := Query.ends_pure.mp run
    rw [List.flatten_singleton]
    exact object
  | first :: second :: objectIDs, pieces, each, run =>
    obtain ⟨⟨concatenatedEntries,total⟩,loop,rest⟩ := Query.ends_bind.mp run
    obtain ⟨listing,length⟩ := concatenatedEntries_ends inverts each Listing.nil loop
    obtain ⟨made,indexed,last⟩ := Query.ends_bind.mp rest
    cases made with
    | error e => exact absurd last Query.ends_fail
    | ok concatID =>
      obtain rfl := Query.ends_pure.mp last
      obtain ⟨listed,level⟩ := indexObject_spec (f := f) stable coarse indexed
      rw [List.nil_append] at listing
      rw [← listing.bytes]
      refine .indirect (IndirectObjectID_index (by omega)).1 listed ⟨?_,listing.contiguous,listing.single⟩
      rintro rfl
      simp at length

theorem forall₂_pieces {objectIDs : List ID} {pieces : ID → Bytes} (each : ∀ objectID ∈ objectIDs, WholeObject f cr objectID (pieces objectID)) :
    List.Forall₂ (WholeObject f cr) objectIDs (objectIDs.map pieces) := by
  rw [List.forall₂_map_right_iff,List.forall₂_same]
  exact each

end Concatenated

section Produced
variable {f : Formats} {newDefaultSplitter : Factory} {cr : ContentReader} {least most : Nat}

theorem Used.sound {factory : Factory} {w : ObjectWriter factory} {bytes : Bytes} (used : Used f newDefaultSplitter cr w bytes) :
    w.Sound f cr bytes := by
  induction used with
  | new splitter inverts idPrefix async => exact newWriter_sound splitter inverts idPrefix async
  | Write _ run ih => exact (ObjectWriter.writeLoop_ends ih run).1
  | complete _ run ih => exact (ObjectWriter.complete_ends ih run).1
  | Checkpoint _ run ih => exact (ObjectWriter.checkpointLocked_ends ih run).1
  | Result _ run ih => exact (ObjectWriter.Result_ends ih run).1

theorem Produced.object (inverts : f.json.Inverts) (stable : newDefaultSplitter.Stable least most) (coarse : 2 ^ 16 ≤ least) {oid : ID}
    {bytes : Bytes} (produced : Produced f newDefaultSplitter cr oid bytes) : WholeObject f cr oid bytes := by
  induction produced with
  | @checkpoint factory w w' bytes n order oid used begun run =>
    obtain ⟨sound,idle,length,_,position,object⟩ := ObjectWriter.checkpointLocked_ends used.sound run
    have some : w'.indirectIndex ≠ [] := fun none => begun (List.eq_nil_of_length_eq_zero (by rw [← length,none]; rfl))
    rw [← position]
    exact (ObjectWriter.objectOf_ends sound idle some (by decide) (fun _ _ _ run => indexObject_spec stable coarse run) object).1
  | result used run =>
    obtain ⟨sound,ended⟩ := ObjectWriter.Result_ends used.sound run
    obtain ⟨idle,empty,begun,_,object⟩ := ended _ rfl
    have whole := sound.flushed (ObjectWriter.objectOf_whole object) empty
    have made := (ObjectWriter.objectOf_ends sound idle begun (by decide) (fun _ _ _ run => indexObject_spec stable coarse run) object).1
    rwa [whole] at made
  | concatenation _ run ih =>
    rw [List.flatMap_def]
    exact Concatenate_ends inverts stable coarse (forall₂_pieces ih) run

end Produced

end Vbe.Objects
