import Vbe.Index.Version1RoundTrip
import Vbe.IndexBlob.Compaction

/-! Indexes whose iteration ends with an error before all their entries were delivered.
Neither the merge of several indexes nor a compaction passes the error on. -/
namespace Vbe.IndexBlob
open Vbe.Library.Bytes Vbe.Index

section Callbacks
variable {ε κ σ : Type}

/-- `Iterate` with a callback that may fail. The errors are those of the callback and those
that the index returns; an index that panics returns none. -/
def iterateWith (ndx : OpenedIndex ε) (r : IDRange) (cb : σ → Info → Except κ σ) (s : σ) : Except (κ ⊕ ε) σ :=
  match (ndx.Iterate r).1.foldlM cb s with
  | .error e => .error (.inl e)
  | .ok s =>
    match (ndx.Iterate r).2 with
    | some e => .error (.inr e)
    | none => .ok s

theorem foldlM_ok {α : Type} (l : List α) (s : σ) : l.foldlM (fun s _ => (.ok s : Except κ σ)) s = .ok s := by
  induction l with
  | nil => rfl
  | cons a l ih => exact ih

/-- A merge never returns the error of one of its indexes. -/
theorem Merged.iterateWith_ok (m : List (OpenedIndex ε)) (r : IDRange) (s : σ) :
    iterateWith (Merged.toIndex m) r (fun s _ => (.ok s : Except κ σ)) s = .ok s := by
  have whole : ((Merged.toIndex m).Iterate r).2 = none := rfl
  rw [iterateWith,foldlM_ok,whole]

end Callbacks

section FailsEarly
variable (env : Surroundings)

/-- There is a first shard, and it is not encrypted or not put. -/
def FirstPutFails (outputPrefix suffix : BlobID) (dataShards : List Bytes) : Prop :=
  ∃ first rest, dataShards = first :: rest ∧ (env.encrypt first outputPrefix suffix = none ∨ env.putBlob 0 = false)

/-- All entries that the inputs deliver. -/
def collected (blobIDs : List BlobID) : Builder := Builder.empty.addAll (blobIDs.flatMap (delivered env))

/-- Some step up to the first put fails. -/
def CompactEpochFailsEarly (blobIDs : List BlobID) (outputPrefix : BlobID) : Prop :=
  (∀ blobID ∈ blobIDs, ¬Unavailable env blobID) → ∀ indexVersion, env.getMutableParameters = some indexVersion →
    ∀ dataShards, (collected env blobIDs).BuildShards indexVersion true DefaultIndexShardSize env.randomSuffixes =
      .ok dataShards → ∀ rnd, env.randomSession = some rnd →
        FirstPutFails env outputPrefix (sessionID rnd dataShards.length) dataShards

def compactIndexBlobsFailsEarly (indexBlobs : List BlobID) (opt : CompactOptions) : Prop :=
  (∀ blobID ∈ indexBlobs, ¬Unavailable env blobID) → ∀ indexVersion, env.getMutableParameters = some indexVersion →
    ∀ dataShards, (dropContentsFromBuilder (collected env indexBlobs) opt).BuildShards indexVersion false
      DefaultIndexShardSize env.randomSuffixes = .ok dataShards →
        FirstPutFails env V0IndexBlobPrefix [] dataShards ∨
          dataShards = [] ∧ env.registerCompaction indexBlobs [] = false

/-- The call returns an error and has put nothing. -/
def Outcome.Refused (outcome : Outcome) : Prop := outcome.1 = [] ∧ outcome.2 ≠ none

variable {env}

theorem writeShards_refused {outputPrefix suffix : BlobID} {dataShards : List Bytes} :
    (writeShards env outputPrefix suffix dataShards 0).Refused ↔ FirstPutFails env outputPrefix suffix dataShards := by
  unfold Outcome.Refused FirstPutFails
  cases dataShards with
  | nil => simp [writeShards]
  | cons first rest =>
    unfold writeShards
    cases made : env.encrypt first outputPrefix suffix with
    | none => simp [made]
    | some blob => cases env.putBlob 0 <;> simp [made]

theorem writeShards_nil {outputPrefix suffix : BlobID} {dataShards : List Bytes} {n : Nat}
    (done : writeShards env outputPrefix suffix dataShards n = ([],none)) : dataShards = [] := by
  cases dataShards with
  | nil => rfl
  | cons first rest =>
    unfold writeShards at done
    cases made : env.encrypt first outputPrefix suffix with
    | none => simp [made] at done
    | some blob => cases accepted : env.putBlob n <;> simp [made,accepted] at done

/-- What the inputs lead to: an error, or what they deliver. -/
theorem addInputs_cases (env : Surroundings) (blobIDs : List BlobID) :
    (∃ e, addInputs env Builder.empty blobIDs = .error e) ∧ (∃ blobID ∈ blobIDs, Unavailable env blobID) ∨
      addInputs env Builder.empty blobIDs = .ok (collected env blobIDs) ∧ ∀ blobID ∈ blobIDs, ¬Unavailable env blobID := by
  by_cases unavailable : ∃ blobID ∈ blobIDs, Unavailable env blobID
  · exact Or.inl ⟨addInputs_error unavailable _,unavailable⟩
  · simp only [not_exists,not_and] at unavailable
    exact Or.inr ⟨addInputs_ok unavailable _,unavailable⟩

theorem refused_error (e : CompactionError) : Outcome.Refused ([],some e) := ⟨rfl,by simp⟩

theorem writeEpoch_refused {outputPrefix : BlobID} {built : Except BuildIndexError (List Bytes)} :
    (writeEpoch env outputPrefix built).Refused ↔ ∀ dataShards, built = .ok dataShards →
      ∀ rnd, env.randomSession = some rnd → FirstPutFails env outputPrefix (sessionID rnd dataShards.length) dataShards := by
  unfold writeEpoch
  cases built with
  | error e => exact iff_of_true (refused_error _) (by simp)
  | ok dataShards =>
    cases env.randomSession with
    | none => exact iff_of_true (refused_error _) (by simp)
    | some rnd => simp [writeShards_refused]

theorem CompactEpoch_refused {blobIDs : List BlobID} {outputPrefix : BlobID} :
    (CompactEpoch env blobIDs outputPrefix).Refused ↔ CompactEpochFailsEarly env blobIDs outputPrefix := by
  unfold CompactEpoch CompactEpochFailsEarly
  rcases addInputs_cases env blobIDs with ⟨⟨e,failed⟩,blobID,member,bad⟩ | ⟨added,available⟩
  · rw [failed]
    exact iff_of_true (refused_error e) fun available => absurd bad (available blobID member)
  · rw [added,forall_prop_of_true available]
    cases env.getMutableParameters with
    | none => exact iff_of_true (refused_error _) (by simp)
    | some indexVersion =>
      simp only [Option.some.injEq,forall_eq']
      exact writeEpoch_refused

theorem writeIndexBlobs_refused {indexBlobs : List BlobID} {built : Except BuildIndexError (List Bytes)} :
    (writeIndexBlobs env indexBlobs built).Refused ↔ ∀ dataShards, built = .ok dataShards →
      FirstPutFails env V0IndexBlobPrefix [] dataShards ∨
        dataShards = [] ∧ env.registerCompaction indexBlobs [] = false := by
  unfold writeIndexBlobs
  cases built with
  | error e => exact iff_of_true (refused_error _) (by simp)
  | ok dataShards =>
    simp only [Except.ok.injEq,forall_eq',← writeShards_refused]
    cases outcome : writeShards env V0IndexBlobPrefix [] dataShards 0 with
    | mk blobs err =>
      have empty : dataShards = [] → blobs = [] ∧ err = none := by
        rintro rfl
        simpa [writeShards,eq_comm] using outcome
      cases err with
      | some e =>
        have nonempty : dataShards ≠ [] := fun none => by simpa using (empty none).2
        simp [Outcome.Refused,nonempty]
      | none =>
        cases blobs with
        | nil =>
          have none := writeShards_nil outcome
          cases registered : env.registerCompaction indexBlobs [] <;> simp [Outcome.Refused,none,registered]
        | cons blob blobs =>
          have nonempty : dataShards ≠ [] := fun none => by simpa using (empty none).1
          cases env.registerCompaction indexBlobs ((blob :: blobs).map Prod.fst) <;> simp [Outcome.Refused,nonempty]

theorem compactIndexBlobs_refused {indexBlobs : List BlobID} {opt : CompactOptions}
    (needed : ¬nothingToCompact indexBlobs opt) :
    (compactIndexBlobs env indexBlobs opt).Refused ↔ compactIndexBlobsFailsEarly env indexBlobs opt := by
  unfold compactIndexBlobs compactIndexBlobsFailsEarly
  rw [if_neg needed]
  rcases addInputs_cases env indexBlobs with ⟨⟨e,failed⟩,blobID,member,bad⟩ | ⟨added,available⟩
  · rw [failed]
    refine iff_of_true ?_ fun available => absurd bad (available blobID member)
    cases env.getMutableParameters with
    | none => exact refused_error _
    | some indexVersion => exact refused_error e
  · rw [added,forall_prop_of_true available]
    cases env.getMutableParameters with
    | none => exact iff_of_true (refused_error _) (by simp)
    | some indexVersion =>
      simp only [Option.some.injEq,forall_eq']
      exact writeIndexBlobs_refused

end FailsEarly

section Reported
variable {env : Surroundings}

/-- The entry is in the builder, or one that it does not beat. -/
def TakenIntoAccount (bld : Builder) (i : Info) : Prop :=
  ∃ w, bld.get? i.contentID = some w ∧ contentInfoGreaterThanStruct i w = false

theorem collected_takes {blobIDs : List BlobID} {blobID : BlobID} (member : blobID ∈ blobIDs) {i : Info}
    (inside : i ∈ delivered env blobID) : TakenIntoAccount (collected env blobIDs) i := by
  have own : i ∈ (blobIDs.flatMap (delivered env)).filter fun j => j.contentID = i.contentID :=
    List.mem_filter.mpr ⟨List.mem_flatMap.mpr ⟨blobID,member,inside⟩,by simp⟩
  unfold TakenIntoAccount collected
  rw [Builder.get?_addAll]
  cases found : best ((blobIDs.flatMap (delivered env)).filter fun j => j.contentID = i.contentID)
      (Builder.empty.get? i.contentID) with
  | none => simp [(best_eq_none.mp found).1] at own
  | some w => exact ⟨w,rfl,contentInfoGreaterThanStruct_eq_false.mpr (rank_le_best found (Or.inl own))⟩

/-- An error in an index is never reported by a merge, and by a compaction only where another
step fails before the first shard is put. -/
theorem truncation_reported_iff (env : Surroundings) (blobIDs : List BlobID) :
    (∀ (ε : Type) (m : List (OpenedIndex ε)) (r : IDRange),
      (∀ (κ σ : Type) (cb : σ → Info → Except κ σ) (s : σ), (∃ ndx ∈ m, (ndx.Iterate r).2 ≠ none) →
        ∃ e, iterateWith (Merged.toIndex m) r cb s = .error e) ↔ ∀ ndx ∈ m, (ndx.Iterate r).2 = none) ∧
    (∀ outputPrefix : BlobID,
      (((∃ blobID ∈ blobIDs, Truncated env blobID) → (CompactEpoch env blobIDs outputPrefix).Refused) ∧
        ((CompactEpoch env blobIDs outputPrefix).2 = none → ∀ blobID ∈ blobIDs, ¬Truncated env blobID ∧
          ∀ i ∈ delivered env blobID, TakenIntoAccount (collected env blobIDs) i)) ↔
      (∀ blobID ∈ blobIDs, ¬Truncated env blobID) ∨ CompactEpochFailsEarly env blobIDs outputPrefix) ∧
    ∀ opt : CompactOptions,
      ((¬nothingToCompact blobIDs opt → (∃ blobID ∈ blobIDs, Truncated env blobID) →
          (compactIndexBlobs env blobIDs opt).Refused) ∧
        (¬nothingToCompact blobIDs opt → (compactIndexBlobs env blobIDs opt).2 = none →
          ∀ blobID ∈ blobIDs, ¬Truncated env blobID ∧
            ∀ i ∈ delivered env blobID, TakenIntoAccount (collected env blobIDs) i)) ↔
      nothingToCompact blobIDs opt ∨ (∀ blobID ∈ blobIDs, ¬Truncated env blobID) ∨
        compactIndexBlobsFailsEarly env blobIDs opt := by
  refine ⟨fun ε m r => ⟨fun reported ndx member => ?_,fun whole κ σ cb s failing => ?_⟩,
    fun outputPrefix => ⟨fun reported => ?_,fun condition => ⟨fun truncated => ?_,fun done blobID member => ?_⟩⟩,
    fun opt => ⟨fun reported => ?_,fun condition => ⟨fun needed truncated => ?_,fun needed done blobID member => ?_⟩⟩⟩
  · by_contra failed
    obtain ⟨e,wrong⟩ := reported Unit Unit (fun s _ => .ok s) () ⟨ndx,member,failed⟩
    rw [Merged.iterateWith_ok] at wrong
    contradiction
  · obtain ⟨ndx,member,failed⟩ := failing
    exact absurd (whole ndx member) failed
  · by_cases truncated : ∃ blobID ∈ blobIDs, Truncated env blobID
    · exact Or.inr (CompactEpoch_refused.mp (reported.1 truncated))
    · exact Or.inl (by simpa using truncated)
  · rcases condition with none | early
    · obtain ⟨blobID,member,bad⟩ := truncated
      exact absurd bad (none blobID member)
    · exact CompactEpoch_refused.mpr early
  · refine ⟨fun bad => ?_,fun i inside => collected_takes member inside⟩
    rcases condition with none | early
    · exact none blobID member bad
    · exact (CompactEpoch_refused.mpr early).2 done
  · by_cases needed : nothingToCompact blobIDs opt
    · exact Or.inl needed
    · by_cases truncated : ∃ blobID ∈ blobIDs, Truncated env blobID
      · exact Or.inr (Or.inr ((compactIndexBlobs_refused needed).mp (reported.1 needed truncated)))
      · exact Or.inr (Or.inl (by simpa using truncated))
  · rcases condition with idle | none | early
    · exact absurd idle needed
    · obtain ⟨blobID,member,bad⟩ := truncated
      exact absurd bad (none blobID member)
    · exact (compactIndexBlobs_refused needed).mpr early
  · refine ⟨fun bad => ?_,fun i inside => collected_takes member inside⟩
    rcases condition with idle | none | early
    · exact needed idle
    · exact none blobID member bad
    · exact ((compactIndexBlobs_refused needed).mpr early).2 done

/-- A file of version 1 that ends after the key of the second of its two entries. -/
def truncatedIndex : Bytes :=
  [1,2,0,20,0,0,0,2, 0,1, 0,0,0,0,0,5,1,1, 0,0,0,0, 0,0,0,0, 0,0,0,9, 0,2]

/-- The entry that is still read. -/
def firstEntry : Info where
  packBlobID := [1]
  timestampSeconds := 5
  originalLength := 9
  packedLength := 9
  packOffset := 0
  compressionHeaderID := 0
  contentID := ⟨0,[1]⟩
  deleted := false
  formatVersion := 1
  encryptionKeyID := 0

def openedTruncated : PackIndex := .v1 ⟨⟨1,2,20,2⟩,truncatedIndex,0⟩

/-- Storage that holds the truncated file under every name and accepts everything. -/
def truncatedStorage : Surroundings where
  getEncryptedBlob := fun _ => some truncatedIndex
  overhead := 0
  getMutableParameters := some 1
  randomSuffixes := [some []]
  randomSession := some []
  encrypt data outputPrefix suffix := some (outputPrefix ++ suffix,data)
  putBlob := fun _ => true
  registerCompaction := fun _ _ => true

theorem Open_truncatedIndex : Open 0 truncatedIndex = .ok openedTruncated := rfl

theorem iterate_openedTruncated : iterateInput openedTruncated = ([firstEntry],some .invalidSlice) := by decide

theorem delivered_truncatedStorage (blobID : BlobID) : delivered truncatedStorage blobID = [firstEntry] := by
  simp only [delivered,truncatedStorage,Open_truncatedIndex,iterate_openedTruncated]

theorem truncated_truncatedStorage (blobID : BlobID) : Truncated truncatedStorage blobID :=
  ⟨truncatedIndex,openedTruncated,.invalidSlice,rfl,Open_truncatedIndex,by rw [iterate_openedTruncated],by decide⟩

theorem available_truncatedStorage (blobID : BlobID) : ¬Unavailable truncatedStorage blobID := by
  intro unavailable
  have panicked := unavailable truncatedIndex rfl openedTruncated Open_truncatedIndex
  rw [iterate_openedTruncated] at panicked
  contradiction

/-- A builder of one entry is written out as one shard. -/
theorem BuildShards_single {bld : Builder} {i : Info} (alone : bld.infos = [i]) {version : Int} {out : Bytes}
    (built : bld.BuildStable version = .ok out) (stable : Bool) :
    bld.BuildShards version stable DefaultIndexShardSize [some []] = .ok [out] := by
  have whole : bld.shard DefaultIndexShardSize = some [bld] :=
    Builder.shard_whole (by simp [alone]) (by simp [alone,DefaultIndexShardSize])
  rw [Builder.BuildShards,if_neg (by decide),whole]
  cases stable <;> simp [buildEach,Builder.Build,built]

theorem BuildStable_firstEntry {bld : Builder} (alone : bld.infos = [firstEntry]) :
    bld.BuildStable 1 = .ok (fileBytesV1 [firstEntry]) := by
  have sorted := sortedContents_single (b := bld) alone (by decide)
  have written : WrittenV1 [firstEntry] 2 :=
    ⟨by decide,by decide,by decide,by decide,by decide,by decide,by decide,by decide⟩
  have done := buildV1_written (sorted ▸ written)
  rw [sorted] at done
  rw [Builder.BuildStable,done]
  rfl

/-- A merge and compactions of the truncated file return no error, and the compactions
put an output. -/
theorem truncation_unreported : iterateInput openedTruncated = ([firstEntry],some .invalidSlice) ∧
    iterateWith (Merged.toIndex [openedTruncated.opened []]) AllIDs (fun s _ => (.ok s : Except Unit Unit)) () = .ok () ∧
    Truncated truncatedStorage [1] ∧
    CompactEpoch truncatedStorage [[1]] [120] = ([([120,115,45,99,49],fileBytesV1 [firstEntry])],none) ∧
    compactIndexBlobs truncatedStorage [[1],[2]] ⟨none,[]⟩ = ([([110],fileBytesV1 [firstEntry])],none) := by
  refine ⟨iterate_openedTruncated,Merged.iterateWith_ok _ _ _,truncated_truncatedStorage [1],?_,?_⟩
  · have readable : ∀ blobID ∈ ([[1]] : List BlobID), ¬Unavailable truncatedStorage blobID :=
      fun blobID _ => available_truncatedStorage blobID
    have added := addInputs_ok readable Builder.empty
    have alone : (Builder.empty.addAll ([[1]].flatMap (delivered truncatedStorage))).infos = [firstEntry] := by
      simp only [List.flatMap_cons,List.flatMap_nil,delivered_truncatedStorage]
      decide
    rw [CompactEpoch,added]
    show writeEpoch truncatedStorage [120]
      (Builder.BuildShards _ 1 true DefaultIndexShardSize [some []]) = _
    rw [BuildShards_single alone (BuildStable_firstEntry alone)]
    rfl
  · have readable : ∀ blobID ∈ ([[1],[2]] : List BlobID), ¬Unavailable truncatedStorage blobID :=
      fun blobID _ => available_truncatedStorage blobID
    have added := addInputs_ok readable Builder.empty
    have alone : (dropContentsFromBuilder (Builder.empty.addAll ([[1],[2]].flatMap (delivered truncatedStorage)))
        ⟨none,[]⟩).infos = [firstEntry] := by
      simp only [List.flatMap_cons,List.flatMap_nil,delivered_truncatedStorage]
      decide
    rw [compactIndexBlobs,if_neg (by decide),added]
    show writeIndexBlobs truncatedStorage [[1],[2]]
      (Builder.BuildShards _ 1 false DefaultIndexShardSize [some []]) = _
    rw [BuildShards_single alone (BuildStable_firstEntry alone)]
    rfl

end Reported

end Vbe.IndexBlob
