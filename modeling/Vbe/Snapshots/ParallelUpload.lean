import Vbe.Snapshots.UploadFile

/-! The object of a file that has been uploaded, in parts or not, has the bytes of the file. -/
namespace Vbe.Snapshots
open Vbe.Index (Bytes)
open Vbe.Library Vbe.Objects Vbe.Splitter

/-- What the file and the repository may answer, if in the end the repository holds these contents. -/
def Served (file : File) (cr : ContentReader) : UploadOp → UploadReply → Prop
  | .Read position size, .read bytes err => bytes.length ≤ size ∧ bytes = (file.bytes.drop position).take bytes.length ∧
    (err = some .EOF → file.bytes.length ≤ position + bytes.length)
  | .content op, .content reply => Kept cr op reply
  | .Open, .result _ | .Seek _, .result _ | .VerifyObject _, .result _ => True
  | .IsCanceled, .canceled _ | .meanwhile, .events _ | .waiting, .order _ | .turn, .turn _ => True
  | _, _ => False

section Writers
variable {file : File} {cr : ContentReader} {α : Type} {p : Action α}

theorem repository_ends {a : α} (run : (repository p).Ends (Served file cr) (.ok (.ok a))) : p.Ends (Kept cr) (.ok a) := by
  induction p with
  | answer b =>
    cases run
    rfl
  | fail e =>
    rw [repository,failed.eq_def] at run
    split at run <;> cases run
  | ask op next ih =>
    rw [repository] at run
    obtain ⟨reply,allowed,rest⟩ := run
    cases reply with
    | content reply => exact ⟨reply,allowed,ih reply rest⟩
    | _ => contradiction

theorem repository_avoids (avoids : p.Avoids (Kept cr) WriteError.Panics) : (repository p).Avoids (Served file cr) (· = .panicked) := by
  induction p with
  | answer b => exact Query.avoids_pure
  | fail e =>
    have other : ¬ e.Panics := fun wrong => avoids e wrong rfl
    rw [repository,failed.eq_def]
    split
    · exact Query.avoids_fail nofun
    · exact Query.avoids_fail nofun
    · exact absurd (.inl rfl) other
    · exact absurd (.inr rfl) other
    · exact Query.avoids_pure
  | ask op next ih =>
    rw [repository]
    refine .ask fun reply allowed => ?_
    cases reply with
    | content reply => exact ih reply fun e wrong ends => avoids e wrong ⟨reply,allowed,ends⟩
    | _ => exact Query.avoids_fail nofun

variable {formats : Formats} {newDefaultSplitter factory : Factory} {least least' most most' : Nat} {w w' : ObjectWriter factory} {bytes : Bytes}

/-- A writer that holds some bytes and is ready for others. -/
structure Holds (formats : Formats) (cr : ContentReader) (least : Nat) (w : ObjectWriter factory) (bytes : Bytes) : Prop where
  sound : w.Sound formats cr bytes
  ready : w.Ready least bytes.length []

section Meanwhile
variable (stable : newDefaultSplitter.Stable least' most') (coarse' : 2 ^ 16 ≤ least') (coarse : 2 ^ 16 ≤ least)

theorem Holds.complete {k : Nat} (holds : Holds formats cr least w bytes) (run : (w.complete k).Ends (Kept cr) (.ok w')) :
    Holds formats cr least w' bytes :=
  ⟨(ObjectWriter.complete_ends holds.sound run).1,holds.ready.unmoved (ObjectWriter.complete_unmoved run)⟩

theorem Holds.checkpoint {index : List IndirectObjectEntry → Index.IDPrefix → Action (Except WriteError Objects.ID)} {order : List Nat}
    {result : Except WriteError Objects.ID} (holds : Holds formats cr least w bytes)
    (run : (w.checkpointLocked index order).Ends (Kept cr) (.ok (w',result))) : Holds formats cr least w' bytes :=
  ⟨(ObjectWriter.checkpointLocked_ends holds.sound run).1,holds.ready.unmoved (ObjectWriter.checkpointLocked_unmoved run)⟩

theorem Holds.write {data : Bytes} (holds : Holds formats cr least w bytes) (run : (w.Write data).Ends (Kept cr) (.ok (w',.ok ()))) :
    Holds formats cr least w' (bytes ++ data) := by
  refine ⟨(ObjectWriter.writeLoop_ends holds.sound run).1,?_⟩
  rw [List.length_append]
  exact ((holds.ready.given data).write le_rfl fun _ => True).2 w' run

theorem meanwhile_ends {fuel : Nat} {events : List WriterEvent} (holds : Holds formats cr least w bytes)
    (run : (meanwhile newDefaultSplitter fuel w events).Ends (Served file cr) (.ok w')) : Holds formats cr least w' bytes := by
  induction events generalizing w with
  | nil =>
    obtain rfl := Query.ends_pure.mp run
    exact holds
  | cons event events ih =>
    cases event with
    | complete k =>
      obtain ⟨result,first,rest⟩ := Query.ends_bind.mp run
      cases result with
      | error e => exact ih holds rest
      | ok w'' => exact ih (holds.complete (repository_ends first)) rest
    | Checkpoint order =>
      obtain ⟨result,first,rest⟩ := Query.ends_bind.mp run
      cases result with
      | error e => exact ih holds rest
      | ok pair => exact ih (holds.checkpoint (repository_ends first)) rest

include stable coarse' coarse in
theorem meanwhile_avoids {fuel : Nat} {events : List WriterEvent} (holds : Holds formats cr least w bytes) (short : bytes.length < 2 ^ 63) :
    (meanwhile newDefaultSplitter fuel w events).Avoids (Served file cr) (· = .panicked) := by
  have other : ¬ WriteError.Panics .unfinished := by simp [WriteError.Panics]
  induction events generalizing w with
  | nil => exact Query.avoids_pure
  | cons event events ih =>
    cases event with
    | complete k =>
      refine .bind (repository_avoids (ObjectWriter.complete_avoids w k)) fun result first => ?_
      cases result with
      | error e => exact ih holds
      | ok w'' => exact ih (holds.complete (repository_ends first))
    | Checkpoint order =>
      refine .bind (repository_avoids ?_) fun result first => ?_
      · refine ObjectWriter.checkpointLocked_avoids other holds.sound short (fun entries idPrefix few => ?_) order
        exact indexObject_avoids formats stable coarse' other fuel _ _ (holds.ready.index_short coarse short (few.trans (by omega)))
      · cases result with
        | error e => exact ih holds
        | ok pair => exact ih (holds.checkpoint (repository_ends first))

/-- What a reader gives that may be limited. -/
def limited (limit : Option Nat) (l : Bytes) : Bytes :=
  match limit with
  | none => l
  | some n => l.take n

theorem readAt_ends {position size : Nat} {limit : Option Nat} {read : Bytes × Option ReadError}
    (run : (readAt position size limit).Ends (Served file cr) (.ok read)) :
    read.1 = (file.bytes.drop position).take read.1.length ∧ (∀ n ∈ limit, read.1.length ≤ n) ∧
      (read.2 = some .EOF → read.1 = limited limit (file.bytes.drop position)) := by
  cases limit with
  | none =>
    obtain ⟨reply,allowed,rest⟩ := run
    cases reply with
    | read bytes err =>
      obtain rfl := Query.ends_pure.mp rest
      obtain ⟨_,same,eof⟩ := allowed
      refine ⟨same,by simp,fun ended => same.trans (List.take_of_length_le ?_)⟩
      rw [List.length_drop]
      have := eof ended
      omega
    | _ => contradiction
  | some n =>
    cases n with
    | zero =>
      obtain rfl := Query.ends_pure.mp run
      exact ⟨rfl,by simp,fun _ => rfl⟩
    | succ n =>
      obtain ⟨reply,allowed,rest⟩ := run
      cases reply with
      | read bytes err =>
        obtain rfl := Query.ends_pure.mp rest
        obtain ⟨few,same,eof⟩ := allowed
        have bound : bytes.length ≤ n + 1 := few.trans (Nat.min_le_right _ _)
        refine ⟨same,by simpa using bound,fun ended => ?_⟩
        have all : (file.bytes.drop position).length ≤ bytes.length := by
          rw [List.length_drop]
          have := eof ended
          omega
        rw [List.take_of_length_le all] at same
        exact same.trans (List.take_of_length_le (same ▸ bound)).symm
      | _ => contradiction

theorem readAt_avoids (position size : Nat) (limit : Option Nat) : (readAt position size limit).Avoids (Served file cr) (· = .panicked) := by
  unfold readAt
  split
  next => exact Query.avoids_pure
  next =>
    refine .ask fun reply _ => ?_
    cases reply with
    | read bytes err => exact Query.avoids_pure
    | _ => exact Query.avoids_fail nofun

theorem writeRead_ends {data : Bytes} {result : Except WriteError Unit} (holds : Holds formats cr least w bytes)
    (run : (writeRead w data).Ends (Served file cr) (.ok (.ok (w',result)))) (good : result = .ok ()) : Holds formats cr least w' (bytes ++ data) := by
  subst good
  rw [writeRead] at run
  split at run
  next none =>
    obtain ⟨rfl,_⟩ := Prod.mk.inj (Except.ok.inj (Query.ends_pure.mp run))
    rwa [none,List.append_nil]
  next => exact holds.write (repository_ends run)

theorem writeRead_avoids (holds : Holds formats cr least w bytes) (data : Bytes) :
    (writeRead w data).Avoids (Served file cr) (· = .panicked) := by
  rw [writeRead]
  split
  next => exact Query.avoids_pure
  next => exact repository_avoids ((holds.ready.given data).write le_rfl _).1

/-- One round of the copy, with the rest of it. -/
theorem limited_next {limit : Option Nat} {l read : Bytes} (taken : read = l.take read.length) (few : ∀ n ∈ limit, read.length ≤ n) :
    limited limit l = read ++ limited (limit.map (· - read.length)) (l.drop read.length) := by
  conv_lhs => rw [← List.take_append_drop read.length l,← taken]
  cases limit with
  | none => rfl
  | some n =>
    have within : read.length ≤ n := few n rfl
    simp only [limited,Option.map_some,List.take_append,List.take_of_length_le within]

theorem copyWithProgress_ends {fuel position : Nat} {limit : Option Nat} {written : Int} {result : ObjectWriter factory × Int}
    (holds : Holds formats cr least w bytes)
    (run : (copyWithProgress newDefaultSplitter fuel w position limit written).Ends (Served file cr) (.ok (.ok result))) :
    Holds formats cr least result.1 (bytes ++ limited limit (file.bytes.drop position)) ∧
      result.2 = written + (limited limit (file.bytes.drop position)).length := by
  induction fuel generalizing w position limit written bytes with
  | zero => exact absurd run Query.ends_fail
  | succ fuel ih =>
    obtain ⟨reply,_,run⟩ := run
    dsimp only at run
    split at run
    next => cases run
    next =>
      obtain ⟨read,first,run⟩ := Query.ends_bind.mp run
      obtain ⟨taken,few,eof⟩ := readAt_ends first
      obtain ⟨reply,_,run⟩ := run
      dsimp only at run
      split at run
      next events =>
        obtain ⟨dst,between,run⟩ := Query.ends_bind.mp run
        have holds' := meanwhile_ends holds between
        obtain ⟨wrote,writing,run⟩ := Query.ends_bind.mp run
        split at run
        next => cases run
        next => cases run
        next dst' =>
          have holds'' := writeRead_ends holds' writing rfl
          split at run
          next ended =>
            cases Except.ok.inj (Query.ends_pure.mp run)
            rw [← eof ended]
            exact ⟨holds'',rfl⟩
          next => cases run
          next =>
            obtain ⟨holds3,count⟩ := ih holds'' run
            rw [← List.drop_drop] at holds3 count
            rw [limited_next taken few]
            refine ⟨by rwa [List.append_assoc] at holds3,?_⟩
            rw [count,List.length_append]
            push_cast
            ring
      next => exact absurd run Query.ends_fail
    next => exact absurd run Query.ends_fail

include stable coarse' coarse in
theorem copyWithProgress_avoids {fuel position : Nat} {limit : Option Nat} {written : Int} (holds : Holds formats cr least w bytes)
    (before : bytes.length ≤ position) (inside : position ≤ file.bytes.length) :
    (copyWithProgress newDefaultSplitter fuel w position limit written).Avoids (Served file cr) (· = .panicked) := by
  induction fuel generalizing w position limit written bytes with
  | zero => exact Query.avoids_fail nofun
  | succ fuel ih =>
    have fits := file.fits
    refine .ask fun reply _ => ?_
    split
    next => exact Query.avoids_pure
    next =>
      refine .bind (readAt_avoids _ _ _) fun read first => ?_
      obtain ⟨taken,_,_⟩ := readAt_ends first
      have within : read.1.length ≤ file.bytes.length - position := by
        have length := congrArg List.length taken
        rw [List.length_take,List.length_drop] at length
        omega
      refine .ask fun reply _ => ?_
      split
      next events =>
        refine .bind (meanwhile_avoids stable coarse' coarse holds (by omega)) fun dst between => ?_
        have holds' := meanwhile_ends holds between
        refine .bind (writeRead_avoids holds' _) fun wrote writing => ?_
        split
        next => exact Query.avoids_pure
        next => exact Query.avoids_pure
        next dst' =>
          have holds'' := writeRead_ends holds' writing rfl
          split
          next => exact Query.avoids_pure
          next => exact Query.avoids_pure
          next => exact ih holds'' (by rw [List.length_append]; omega) (by omega)
      next => exact Query.avoids_fail nofun
    next => exact Query.avoids_fail nofun

end Meanwhile

section Parts
variable (inverts : formats.json.Inverts) (stable : newDefaultSplitter.Stable least' most') (coarse' : 2 ^ 16 ≤ least')
  (fileStable : factory.Stable least most) (coarse : 2 ^ 16 ≤ least) {compressor : Option Compressor}
  (compresses : ∀ comp ∈ compressor, comp.Inverts formats) {splitter : factory.State} (pooled : factory.Pooled splitter)
  {fuel : Nat} {fname : Bytes} {offset length : Int}

theorem waiting_avoids : waiting.Avoids (Served file cr) (· = .panicked) := by
  refine .ask fun reply _ => ?_
  split
  next => exact Query.avoids_pure
  next => exact Query.avoids_fail nofun

theorem seekStart_avoids : (seekStart offset).Avoids (Served file cr) (· = .panicked) := by
  rw [seekStart]
  split
  next => exact Query.avoids_pure
  next =>
    refine .ask fun reply _ => ?_
    split
    next => exact Query.avoids_pure
    next => exact Query.avoids_fail nofun

include fileStable compresses pooled in
theorem holds_new : Holds formats cr least (newWriter splitter compressor [] true) [] :=
  ⟨newWriter_sound splitter compresses [] true,ObjectWriter.ready_new fileStable pooled compressor [] true⟩

/-- The bytes of a part. -/
def File.piece (file : File) (offset length : Int) : Bytes :=
  limited (if length ≥ 0 then some length.toNat else none) (file.bytes.drop offset.toNat)

include inverts stable coarse' fileStable compresses pooled in
/-- A part that has been uploaded has the bytes of the file from its offset on. -/
theorem uploadFileData_ends {de : DirEntry}
    (run : (uploadFileData newDefaultSplitter compressor fuel file splitter fname offset length).Ends (Served file cr) (.ok (.ok de))) :
    Part formats cr least de.ObjectID (file.piece offset length) ∧ de.FileSize = Int64.ofInt (file.piece offset length).length := by
  obtain ⟨reply,_,run⟩ := run
  dsimp only at run
  split at run
  next =>
    obtain ⟨sought,_,run⟩ := Query.ends_bind.mp run
    split at run
    next =>
      obtain ⟨copied,copying,run⟩ := Query.ends_bind.mp run
      split at run
      next => cases run
      next writer written =>
        obtain ⟨holds,count⟩ := copyWithProgress_ends (holds_new fileStable compresses pooled) copying
        rw [List.nil_append] at holds
        obtain ⟨reply,_,run⟩ := run
        dsimp only at run
        split at run
        next =>
          obtain ⟨writer',between,run⟩ := Query.ends_bind.mp run
          have holds' := meanwhile_ends holds between
          obtain ⟨order,_,run⟩ := Query.ends_bind.mp run
          obtain ⟨result,ended,run⟩ := Query.ends_bind.mp run
          split at run
          next => cases run
          next => cases run
          next =>
            cases Except.ok.inj (Query.ends_pure.mp run)
            refine ⟨ObjectWriter.Result_part inverts stable coarse' holds'.sound holds'.ready (repository_ends ended),?_⟩
            rw [zero_add] at count
            exact congrArg Int64.ofInt count
        next => exact absurd run Query.ends_fail
    next => cases run
  next => cases run

include stable coarse' fileStable coarse compresses pooled in
theorem uploadFileData_avoids (inside : offset.toNat ≤ file.bytes.length) :
    (uploadFileData newDefaultSplitter compressor fuel file splitter fname offset length).Avoids (Served file cr) (· = .panicked) := by
  have other : ¬ WriteError.Panics .unfinished := by simp [WriteError.Panics]
  have holds : Holds formats cr least (newWriter splitter compressor [] true) [] := holds_new fileStable compresses pooled
  refine .ask fun reply _ => ?_
  split
  next =>
    refine .bind seekStart_avoids fun sought _ => ?_
    split
    next =>
      refine .bind (copyWithProgress_avoids stable coarse' coarse holds (Nat.zero_le _) inside) fun copied copying => ?_
      split
      next => exact Query.avoids_pure
      next writer written =>
        obtain ⟨holds',_⟩ := copyWithProgress_ends holds copying
        rw [List.nil_append] at holds'
        have short : (file.piece offset length).length < 2 ^ 63 := by
          refine lt_of_le_of_lt ?_ file.fits
          unfold File.piece limited
          split
          · rw [List.length_drop]
            omega
          · rw [List.length_take,List.length_drop]
            omega
        refine .ask fun reply _ => ?_
        split
        next =>
          refine .bind (meanwhile_avoids stable coarse' coarse holds' short) fun writer' between => ?_
          have holds'' := meanwhile_ends holds' between
          refine .bind waiting_avoids fun order _ => .bind (repository_avoids ?_) fun result _ => ?_
          · refine ObjectWriter.Result_avoids other holds''.sound short (fun entries idPrefix few => ?_) order
            exact indexObject_avoids formats stable coarse' other fuel _ _ (holds''.ready.index_short coarse short few)
          · split
            next => exact Query.avoids_pure
            next => exact Query.avoids_pure
            next => exact Query.avoids_pure
        next => exact Query.avoids_fail nofun
    next => exact Query.avoids_pure
  next => exact Query.avoids_pure

end Parts

end Writers

section Whole
variable {file : File} {cr : ContentReader} {formats : Formats} {newDefaultSplitter factory : Factory} {least least' most most' : Nat}
  {compressor : Option Compressor} {splitters : Nat → factory.State} {maxAlloc fuel : Nat} {NewString : Nat → Bytes}

theorem chunks_flatten (l : Bytes) (size n : Nat) : ((List.range n).map fun i => (l.drop (i * size)).take size).flatten = l.take (n * size) := by
  induction n with
  | zero => simp
  | succ n ih =>
    rw [List.range_succ,List.map_append,List.flatten_append,ih,Nat.add_mul,Nat.one_mul,List.take_add]
    simp

/-- The parts, the last of which has what is left of the file. -/
theorem pieces_flatten (file : File) {chunkSize : Int} (positive : 0 < chunkSize) (n : Nat) :
    ((List.range (n + 1)).map fun i : Nat => file.piece (i * chunkSize) (if i = n then -1 else chunkSize)).flatten = file.bytes := by
  obtain ⟨size,rfl⟩ := Int.eq_ofNat_of_zero_le positive.le
  have full : ((List.range n).map fun i : Nat => file.piece (i * size) (if i = n then -1 else size)) =
      (List.range n).map fun i => (file.bytes.drop (i * size)).take size := by
    refine List.map_congr_left fun i member => ?_
    rw [if_neg (List.mem_range.mp member).ne,File.piece,if_pos (Int.natCast_nonneg size)]
    rfl
  have last : file.piece (n * size) (if n = n then -1 else size) = file.bytes.drop (n * size) := by
    rw [if_pos rfl,File.piece,if_neg (by decide)]
    rfl
  rw [List.range_succ,List.map_append,List.flatten_append,full,chunks_flatten,List.map_singleton,last,List.flatten_singleton]
  exact List.take_append_drop _ _

theorem sizes_sum {parts : List DirEntry} {pieces : List Bytes}
    (sizes : List.Forall₂ (fun part piece => part.FileSize = Int64.ofInt (piece : Bytes).length) parts pieces) :
    (parts.map DirEntry.FileSize).sum = Int64.ofInt pieces.flatten.length := by
  induction sizes with
  | nil => rfl
  | cons size _ ih =>
    rw [List.map_cons,List.sum_cons,ih,size,List.flatten_cons,List.length_append,← Int64.ofInt_add]
    norm_cast

theorem size_toInt (file : File) : (Int64.ofInt file.bytes.length).toInt = file.bytes.length := by
  have fits := file.fits
  exact Int64.toInt_ofInt_of_le (by omega) (by omega)

/-- The object can be opened, and a reader of it answers as one over the bytes in memory. -/
def ReadsAs (formats : Formats) (cr : ContentReader) (oid : Objects.ID) (bytes : Bytes) : Prop :=
  ∃ N, ∀ m, N ≤ m → ∃ r, (Open formats m oid).outcome cr.GetContent = .ok r ∧ r.Length = bytes.length ∧
    ∀ calls, ∃ r', (r.accesses formats m calls).outcome cr.GetContent = .ok (accessesInMemory bytes 0 calls,r')

theorem readsAs_whole (inverts : formats.json.Inverts) {oid : Objects.ID} {bytes : Bytes} (object : WholeObject formats cr oid bytes) :
    ReadsAs formats cr oid bytes := by
  obtain ⟨N,opens⟩ := object.Open inverts
  refine ⟨N + 1,fun m enough => ?_⟩
  obtain ⟨m,rfl⟩ : ∃ k, m = k + 1 := ⟨m - 1,by omega⟩
  obtain ⟨r,opened,length,here⟩ := opens (m + 1) (by omega)
  exact ⟨r,opened,length,fun calls => here.accesses calls⟩

theorem makeSlice_ends {elementSize length : Nat} {u : Unit} (run : (makeSlice maxAlloc elementSize length).Ends (Served file cr) (.ok u)) :
    length * elementSize ≤ maxAlloc := by
  rw [makeSlice] at run
  split at run
  next => exact absurd run Query.ends_fail
  next fits => exact Nat.not_lt.mp fits

section Joined
variable {parts : List DirEntry} {pieces : List Bytes}

/-- The entry of a file whose parts have been joined. -/
theorem concatenateParts_ends (inverts : formats.json.Inverts) (stable : newDefaultSplitter.Stable least' most') (coarse' : 2 ^ 16 ≤ least')
    (each : List.Forall₂ (fun de piece => Part formats cr least de.ObjectID piece ∧ de.FileSize = Int64.ofInt (piece : Bytes).length) parts pieces)
    {name : Bytes} {de : DirEntry}
    (run : (concatenateParts formats newDefaultSplitter fuel name parts).Ends (Served file cr) (.ok (.ok de))) :
    WholeObject formats cr de.ObjectID pieces.flatten ∧ de.FileSize = Int64.ofInt pieces.flatten.length := by
  obtain ⟨result,joined,run⟩ := Query.ends_bind.mp run
  split at run
  next => cases run
  next resultObject =>
    split at run
    next => exact absurd run Query.ends_fail
    next =>
      cases Except.ok.inj (Query.ends_pure.mp run)
      have objects := List.forall₂_map_left_iff.mpr (each.imp fun _ _ both => both.1.object)
      exact ⟨Concatenate_ends inverts stable coarse' objects (repository_ends joined),sizes_sum (each.imp fun _ _ both => both.2)⟩

theorem concatenateParts_avoids (inverts : formats.json.Inverts) (stable : newDefaultSplitter.Stable least' most') (coarse' : 2 ^ 16 ≤ least')
    (coarse : 2 ^ 16 ≤ least) (each : List.Forall₂ (fun de piece => Part formats cr least de.ObjectID piece) parts pieces)
    (some : parts ≠ []) (short : pieces.flatten.length < 2 ^ 63) (few : parts.length ≤ 2 ^ 55) {name : Bytes} :
    (concatenateParts formats newDefaultSplitter fuel name parts).Avoids (Served file cr) (· = .panicked) := by
  have objects := List.forall₂_map_left_iff.mpr each
  refine .bind (repository_avoids (Concatenate_avoids inverts stable coarse' coarse objects short (by rwa [List.length_map]))) fun result _ => ?_
  split
  next => exact Query.avoids_pure
  next =>
    split
    next => exact absurd rfl some
    next => exact Query.avoids_pure

end Joined

/-- The tasks whose results have been joined without an error. -/
theorem joined_ends {tasks : List (Upload (Except UploadError DirEntry))} {results : List (Except UploadError DirEntry)} {parts : List DirEntry}
    (ends : List.Forall₂ (fun task result => task.Ends (Served file cr) (.ok result)) tasks results)
    (joined : results.mapM Except.toOption = some parts) :
    List.Forall₂ (fun task de => task.Ends (Served file cr) (.ok (.ok de))) tasks parts := by
  induction ends generalizing parts with
  | nil =>
    cases joined
    exact .nil
  | @cons task result _ _ first _ ih =>
    rw [List.mapM_cons] at joined
    obtain ⟨de,own,rest⟩ := Option.bind_eq_some_iff.mp joined
    obtain ⟨later,more,same⟩ := Option.bind_eq_some_iff.mp rest
    cases same
    refine .cons ?_ (ih more)
    cases result with
    | error e => contradiction
    | ok de' =>
      cases own
      exact first

/-- A size from which on files are uploaded in parts is not zero, and leaves not more parts than a slice of errors can have. -/
def Partitions (maxAlloc : Nat) (file : File) (ParallelUploadAboveSize : Option Int) : Prop :=
  ∀ chunkSize ∈ ParallelUploadAboveSize, 0 ≤ chunkSize → chunkSize < file.Size →
    chunkSize ≠ 0 ∧ ((file.Size / chunkSize).toNat + 1) * 16 ≤ maxAlloc

/-- The upload of a file does not panic, and if it succeeds, the entry is that of an object with the bytes of the file. -/
def Uploads (formats : Formats) (cr : ContentReader) (file : File) (upload : Upload (Except UploadError DirEntry)) : Prop :=
  (∀ result, upload.Ends (Served file cr) result → result ≠ .error .panicked) ∧
    ∀ de, upload.Ends (Served file cr) (.ok (.ok de)) → de.FileSize.toInt = file.bytes.length ∧ ReadsAs formats cr de.ObjectID file.bytes

theorem uploads_of_avoids {upload : Upload (Except UploadError DirEntry)} (avoids : upload.Avoids (Served file cr) (· = .panicked))
    (ends : ∀ de, upload.Ends (Served file cr) (.ok (.ok de)) → de.FileSize.toInt = file.bytes.length ∧ ReadsAs formats cr de.ObjectID file.bytes) :
    Uploads formats cr file upload := by
  refine ⟨?_,ends⟩
  rintro result run rfl
  exact avoids _ rfl run

section Parallel
variable (inverts : formats.json.Inverts) (stable : newDefaultSplitter.Stable least' most') (coarse' : 2 ^ 16 ≤ least')
  (fileStable : factory.Stable least most) (coarse : 2 ^ 16 ≤ least) (compresses : ∀ comp ∈ compressor, comp.Inverts formats)
  (pooled : ∀ i, factory.Pooled (splitters i)) (addresses : maxAlloc ≤ 2 ^ 57)

include inverts stable coarse' fileStable coarse compresses pooled

theorem uploads_single : Uploads formats cr file (uploadFileData newDefaultSplitter compressor fuel file (splitters 0) file.Name 0 (-1)) := by
  refine uploads_of_avoids (uploadFileData_avoids stable coarse' fileStable coarse compresses (pooled 0) (Nat.zero_le _)) fun de run => ?_
  obtain ⟨part,size⟩ := uploadFileData_ends inverts stable coarse' fileStable compresses (pooled 0) run
  have whole : file.piece 0 (-1) = file.bytes := rfl
  rw [whole] at part size
  rw [size]
  exact ⟨size_toInt file,readsAs_whole inverts part.object⟩

include addresses in
theorem uploads_parts {chunkSize : Int} (positive : 0 < chunkSize) (fits : ((file.Size / chunkSize).toNat + 1) * 16 ≤ maxAlloc) :
    Uploads formats cr file (uploadInParts formats newDefaultSplitter compressor splitters maxAlloc fuel file NewString chunkSize) := by
  unfold uploadInParts
  generalize count : (file.Size / chunkSize).toNat = n at fits ⊢
  have divides : (n : Int) * chunkSize ≤ file.Size := by
    have nonneg : 0 ≤ file.Size / chunkSize := Int.ediv_nonneg (Int.natCast_nonneg _) positive.le
    rw [← count,Int.toNat_of_nonneg nonneg]
    exact Int.ediv_mul_le _ positive.ne'
  have whole := pieces_flatten file positive n
  have avoids (i : Nat) (member : i ∈ List.range (n + 1)) : (uploadFileData newDefaultSplitter compressor fuel file (splitters i) (NewString i)
      (i * chunkSize) (if i = n then -1 else chunkSize)).Avoids (Served file cr) (· = .panicked) := by
    refine uploadFileData_avoids stable coarse' fileStable coarse compresses (pooled i) ?_
    have below : (i : Int) * chunkSize ≤ n * chunkSize :=
      Int.mul_le_mul_of_nonneg_right (by exact_mod_cast Nat.lt_succ_iff.mp (List.mem_range.mp member)) positive.le
    rw [File.Size] at divides
    omega
  have parts (results : List (Bool × Except UploadError DirEntry)) (parts : List DirEntry)
      (joined : (results.map Prod.snd).mapM Except.toOption = some parts)
      (run : (Crew.run (fun _ => false) .unfinished .turn UploadReply.turn? fuel (Crew.of ((List.range (n + 1)).map fun i =>
        uploadFileData newDefaultSplitter compressor fuel file (splitters i) (NewString i) (i * chunkSize)
          (if i = n then -1 else chunkSize)))).Ends (Served file cr) (.ok results)) :
      List.Forall₂ (fun de piece => Part formats cr least de.ObjectID piece ∧ de.FileSize = Int64.ofInt (piece : Bytes).length) parts
        ((List.range (n + 1)).map fun i : Nat => file.piece (i * chunkSize) (if i = n then -1 else chunkSize)) := by
    have each := List.forall₂_map_left_iff.mp (joined_ends (((Crew.run_ends (Crew.fits_of _) (List.forall₂_same.mpr fun _ _ _ ends => ends) run).1 _ rfl).forall₂ fun _ => rfl) joined)
    refine List.forall₂_map_right_iff.mpr (each.flip.imp fun de i run => ?_)
    exact uploadFileData_ends inverts stable coarse' fileStable compresses (pooled i) run
  refine uploads_of_avoids ?_ fun de run => ?_
  · refine .bind ?_ fun _ _ => .bind ?_ fun _ _ => .bind (Crew.run_avoids nofun fun task member => ?_) fun results run => ?_
    · rw [makeSlice,if_neg (by omega)]
      exact Query.avoids_pure
    · rw [makeSlice,if_neg (by omega)]
      exact Query.avoids_pure
    · obtain ⟨i,inside,rfl⟩ := List.mem_map.mp member
      exact avoids i inside
    · split
      next => exact Query.avoids_pure
      next joined' joined =>
        have each := parts results joined' joined run
        have length := each.length_eq
        rw [List.length_map,List.length_range] at length
        refine concatenateParts_avoids inverts stable coarse' coarse (each.imp fun _ _ both => both.1) ?_ ?_ (by omega)
        · rintro rfl
          simp at length
        · rw [whole]
          exact file.fits
  · obtain ⟨_,_,run⟩ := Query.ends_bind.mp run
    obtain ⟨_,_,run⟩ := Query.ends_bind.mp run
    obtain ⟨results,first,run⟩ := Query.ends_bind.mp run
    split at run
    next => cases run
    next joined' joined =>
      obtain ⟨object,size⟩ := concatenateParts_ends inverts stable coarse' (parts results joined' joined first) run
      rw [whole] at object size
      rw [size]
      exact ⟨size_toInt file,readsAs_whole inverts object⟩

include addresses in
/-- Exactly where the file is not cut into parts of no length, or into too many, its upload succeeds with its bytes or fails
with an error, whoever uploads the parts. -/
theorem uploadFileInternal_uploads_iff (ordinary : file.DirEntryOrNil = none ∨ file.DirEntryOrNil = some (.ok none))
    (ParallelUploadAboveSize : Option Int) :
    (∀ fuel, Uploads formats cr file
      (uploadFileInternal formats newDefaultSplitter compressor splitters maxAlloc fuel file NewString ParallelUploadAboveSize)) ↔
      Partitions maxAlloc file ParallelUploadAboveSize := by
  have plain (fuel : Nat) : uploadFileInternal formats newDefaultSplitter compressor splitters maxAlloc fuel file NewString
      ParallelUploadAboveSize =
      let chunkSize := ParallelUploadAboveSize.getD (-1)
      if chunkSize < 0 ∨ file.Size ≤ chunkSize then
        uploadFileData newDefaultSplitter compressor fuel file (splitters 0) file.Name 0 (-1)
      else if chunkSize = 0 then .fail .panicked
      else uploadInParts formats newDefaultSplitter compressor splitters maxAlloc fuel file NewString chunkSize := by
    rw [uploadFileInternal]
    rcases ordinary with none | none
    · rw [none]
    · rw [none]
  simp only [plain]
  cases ParallelUploadAboveSize with
  | none => exact ⟨fun _ => nofun,fun _ _ => uploads_single inverts stable coarse' fileStable coarse compresses pooled⟩
  | some chunkSize =>
    simp only [Option.getD_some]
    split
    next direct =>
      refine ⟨fun _ => ?_,fun _ _ => uploads_single inverts stable coarse' fileStable coarse compresses pooled⟩
      rintro _ ⟨⟩ nonneg less
      omega
    next parallel =>
      push Not at parallel
      constructor
      · rintro uploads _ ⟨⟩ _ _
        have safe := (uploads 0).1
        split at safe
        next => exact absurd rfl (safe _ rfl)
        next positive =>
          refine ⟨positive,?_⟩
          by_contra large
          refine safe (.error .panicked) ?_ rfl
          rw [uploadInParts,makeSlice,makeSlice]
          split
          next => rfl
          next =>
            rw [if_pos (Nat.not_le.mp large)]
            rfl
      · intro partitions fuel
        obtain ⟨positive,fits⟩ := partitions chunkSize rfl parallel.1 parallel.2
        rw [if_neg positive]
        exact uploads_parts inverts stable coarse' fileStable coarse compresses pooled addresses (by omega) fits

end Parallel

end Whole

section Example

def threeBytes : File := ⟨[97],[1,2,3],by decide,0o644,1,0,0,none⟩

noncomputable def uploadThreeBytes (fuel : Nat) (ParallelUploadAboveSize : Option Int) : Upload (Except UploadError DirEntry) :=
  @uploadFileInternal pairFormats (Fixed (2 ^ 17)) (Fixed (2 ^ 17)) none (fun _ => (Fixed (2 ^ 17)).make) (2 ^ 48) fuel threeBytes
    (fun _ => [97]) ParallelUploadAboveSize

/-- Three bytes in parts of one byte each, and an empty one. -/
theorem uploadFileInternal_uploads_iff_three : Uploads pairFormats pairContents threeBytes (uploadThreeBytes 99 (some 1)) := by
  have stable : (Fixed (2 ^ 17)).Stable (2 ^ 17) (2 ^ 17) := stable_fixed (Nat.two_pow_pos 17)
  refine (uploadFileInternal_uploads_iff wholeDecoder_inverts stable (by decide) stable (by decide) (by simp) (fun _ => .made) (by decide)
    (.inl rfl) (some 1)).mpr ?_ 99
  rintro _ ⟨⟩ _ _
  decide

theorem uploadFileInternal_divides_by_zero : ¬ ∀ (ParallelUploadAboveSize : Option Int) (fuel : Nat),
    Uploads pairFormats pairContents threeBytes (uploadThreeBytes fuel ParallelUploadAboveSize) := by
  intro all
  exact (all (some 0) 0).1 (.error .panicked) rfl rfl

end Example

end Vbe.Snapshots
