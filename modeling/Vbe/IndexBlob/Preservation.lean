import Vbe.Index.MergedAnswers
import Vbe.Index.Reopened
import Vbe.IndexBlob.Truncation

/-! What an index compaction keeps: the merge of its outputs answers every lookup as the
merge of its inputs does, alone or among any other indexes. The same goes for the index
in memory that stands for all small ones. -/
namespace Vbe.IndexBlob
open Vbe.Library.Bytes Vbe.Index

section Written
variable {o : Nat} {b : Builder}

/-- The indexes that files open as. -/
def indexes (files : List (IndexFile o)) : List (ValidIndex ReadError) := files.map IndexFile.index

/-- The entries of all files. -/
def entriesIn (files : List (IndexFile o)) : List Info := files.flatMap fun file => file.index.entries

theorem mem_entriesIn {files : List (IndexFile o)} {i : Info} :
    i ∈ entriesIn files ↔ ∃ ndx ∈ indexes files, i ∈ ndx.entries := by
  simp [entriesIn,indexes]

/-- Builders that together hold what files come down to replace the files. -/
theorem replaces_of_builders {inputs outputs : List (IndexFile o)} {builders : List Builder}
    (written : List.Forall₂ (fun b file => file.index.entries = Builder.sortedContents b) builders outputs)
    (whole : ∀ i, (∃ s ∈ builders, i ∈ s.infos) ↔ i ∈ (Builder.empty.addAll (entriesIn inputs)).infos) :
    Replaces (indexes inputs) (indexes outputs) := by
  have held (i : Info) : (∃ ndx ∈ indexes outputs, i ∈ ndx.entries) ↔
      i ∈ (Builder.empty.addAll (entriesIn inputs)).infos := by
    rw [← whole,← mem_entriesIn]
    clear whole
    induction written with
    | nil => simp [entriesIn]
    | cons same _ ih =>
      have tail : i ∈ entriesIn _ ↔ _ := ih
      simp only [entriesIn,List.flatMap_cons,List.mem_append,List.mem_cons,exists_eq_or_imp,same,mem_sortedContents] at tail ⊢
      rw [tail]
  refine ⟨fun ndx member i inside => ?_,fun ndx member i inside => ?_⟩
  · have there := (held i).mp ⟨ndx,member,inside⟩
    rw [Builder.mem_infos,Builder.get?_addAll,Builder.get?_empty] at there
    rcases best_mem there with own | none
    · exact mem_entriesIn.mp (List.mem_of_mem_filter own)
    · contradiction
  · have own : i ∈ (entriesIn inputs).filter fun j => j.contentID = i.contentID :=
      List.mem_filter.mpr ⟨mem_entriesIn.mpr ⟨ndx,member,inside⟩,by simp⟩
    cases found : (Builder.empty.addAll (entriesIn inputs)).get? i.contentID with
    | none =>
      rw [Builder.get?_addAll,Builder.get?_empty] at found
      simp [(best_eq_none.mp found).1] at own
    | some w =>
      have same := Builder.get?_contentID found
      obtain ⟨ndx',there,holds⟩ := (held w).mpr (Builder.mem_infos.mpr (same.symm ▸ found))
      rw [Builder.get?_addAll,Builder.get?_empty] at found
      exact ⟨ndx',there,w,holds,same,rank_le_best found (Or.inl own)⟩

/-- The entries that come from files can be written again. -/
theorem addAll_entriesIn {files : List (IndexFile o)} :
    ∀ i ∈ (Builder.empty.addAll (entriesIn files)).infos, i.contentID.Valid ∧ i.InRange := by
  intro i member
  rw [Builder.mem_infos,Builder.get?_addAll,Builder.get?_empty] at member
  rcases best_mem member with own | none
  · obtain ⟨file,_,inside⟩ := List.mem_flatMap.mp (List.mem_of_mem_filter own)
    exact ⟨file.ids i inside,file.inRange i inside⟩
  · contradiction

/-- Shards that were written open as the entries of their builders. -/
theorem open_shards {version : Int} {builders : List Builder} {dataShards : List Bytes}
    (built : List.Forall₂ (fun s data => ∃ out trailing, Builder.BuildStable s version = .ok out ∧ data = out ++ trailing)
      builders dataShards)
    (writable : ∀ s ∈ builders, ∀ i ∈ s.infos, (i.contentID.Valid ∧ i.InRange) ∧ i.Kept version o)
    (small : ∀ data ∈ dataShards, data.length < 2 ^ 32) :
    ∃ outputs : List (IndexFile o), outputs.map IndexFile.data = dataShards ∧
      List.Forall₂ (fun b file => file.index.entries = Builder.sortedContents b) builders outputs := by
  induction built with
  | nil => exact ⟨[],rfl,.nil⟩
  | @cons s data builders dataShards first _ ih =>
    obtain ⟨outputs,same,written⟩ := ih (fun s member => writable s (by simp [member]))
      fun data member => small data (by simp [member])
    obtain ⟨out,trailing,done,rfl⟩ := first
    have length := small (out ++ trailing) (by simp)
    rw [List.length_append] at length
    have fields := writable s (by simp)
    obtain ⟨file,own,entries⟩ := BuildStable_opens done (fun i member => (fields i member).1.1)
      (fun i member => (fields i member).1.2) (by omega) o (fun i member => (fields i member).2) trailing
    exact ⟨file :: outputs,by rw [List.map_cons,own,same],.cons entries written⟩

end Written

section Epoch
variable {env : Surroundings} {blobIDs : List BlobID} {outputPrefix : BlobID} {inputs : List (IndexFile env.overhead)}

/-- What an input delivers are the entries of its file. -/
theorem delivered_file {blobID : BlobID} {file : IndexFile env.overhead}
    (read : env.getEncryptedBlob blobID = some file.data) : delivered env blobID = file.index.entries ∧
      ¬Unavailable env blobID := by
  have iterated : iterateInput file.ndx = (file.index.entries,none) := file.iterate_all
  refine ⟨by simp only [delivered,read,file.opens,iterated],fun unavailable => ?_⟩
  have panicked := unavailable file.data read file.ndx file.opens
  rw [iterated] at panicked
  contradiction

theorem collected_files (read : List.Forall₂ (fun blobID file => env.getEncryptedBlob blobID = some (IndexFile.data file))
    blobIDs inputs) : addInputs env Builder.empty blobIDs = .ok (collected env blobIDs) ∧
      collected env blobIDs = Builder.empty.addAll (entriesIn inputs) := by
  have available : ∀ blobID ∈ blobIDs, ¬Unavailable env blobID := by
    intro blobID member
    obtain ⟨n,inside,rfl⟩ := List.mem_iff_getElem.mp member
    have length := read.length_eq
    exact (delivered_file (read.get inside (by omega))).2
  refine ⟨addInputs_ok available _,congrArg (Builder.addAll Builder.empty) ?_⟩
  clear available
  induction read with
  | nil => rfl
  | cons first _ ih => rw [List.flatMap_cons,(delivered_file first).1,ih,entriesIn,entriesIn,List.flatMap_cons]

theorem writeShards_ok {suffix : BlobID} {dataShards : List Bytes} {n : Nat}
    (done : (writeShards env outputPrefix suffix dataShards n).2 = none) :
    List.Forall₂ (fun data blob => env.encrypt data outputPrefix suffix = some blob) dataShards
      (writeShards env outputPrefix suffix dataShards n).1 := by
  induction dataShards generalizing n with
  | nil => exact .nil
  | cons data rest ih =>
    unfold writeShards at done ⊢
    cases made : env.encrypt data outputPrefix suffix with
    | none => simp [made] at done
    | some blob =>
      cases accepted : env.putBlob n with
      | false => simp [made,accepted] at done
      | true =>
        simp only [made,accepted,if_true] at done ⊢
        exact .cons made (ih done)

theorem writeEpoch_ok {built : Except BuildIndexError (List Bytes)} (done : (writeEpoch env outputPrefix built).2 = none) :
    ∃ dataShards suffix, built = .ok dataShards ∧
      List.Forall₂ (fun data blob => env.encrypt data outputPrefix suffix = some blob) dataShards
        (writeEpoch env outputPrefix built).1 := by
  unfold writeEpoch at done ⊢
  cases built with
  | error e => simp at done
  | ok dataShards =>
    cases random : env.randomSession with
    | none => simp [random] at done
    | some rnd =>
      simp only [random] at done ⊢
      exact ⟨dataShards,_,rfl,writeShards_ok done⟩

/-- The files that stand for others are asked in their place, alone or among others. -/
def AnswersAs (inputs outputs : List (ValidIndex ReadError)) : Prop :=
  ∀ rest m m' : List (ValidIndex ReadError), m.Perm (rest ++ inputs) → m'.Perm (rest ++ outputs) → Untied m →
    ∀ id, (Merged.GetInfo (m'.map ValidIndex.toOpenedIndex) id).toOption =
      (Merged.GetInfo (m.map ValidIndex.toOpenedIndex) id).toOption

theorem CompactEpoch_answers
    (read : List.Forall₂ (fun blobID file => env.getEncryptedBlob blobID = some (IndexFile.data file)) blobIDs inputs)
    (kept : ∀ version, env.getMutableParameters = some version → ∀ i ∈ (Builder.empty.addAll (entriesIn inputs)).infos,
      i.Kept version env.overhead)
    (done : (CompactEpoch env blobIDs outputPrefix).2 = none) : ∃ dataShards suffix,
      List.Forall₂ (fun data blob => env.encrypt data outputPrefix suffix = some blob) dataShards
        (CompactEpoch env blobIDs outputPrefix).1 ∧
      ((∀ data ∈ dataShards, data.length < 2 ^ 32) → ∃ outputs : List (IndexFile env.overhead),
        outputs.map IndexFile.data = dataShards ∧ AnswersAs (indexes inputs) (indexes outputs)) := by
  obtain ⟨added,whole⟩ := collected_files read
  unfold CompactEpoch at done ⊢
  rw [added] at done ⊢
  cases parameters : env.getMutableParameters with
  | none => simp [parameters] at done
  | some version =>
    simp only [parameters] at done ⊢
    obtain ⟨dataShards,suffix,built,written⟩ := writeEpoch_ok done
    refine ⟨dataShards,suffix,written,fun small => ?_⟩
    clear done written
    unfold Builder.BuildShards at built
    rw [if_neg (by decide)] at built
    cases divided : (collected env blobIDs).shard DefaultIndexShardSize with
    | none => simp [divided] at built
    | some builders =>
      simp only [divided] at built
      obtain ⟨_,parts⟩ := Builder.shard_infos divided
      rw [whole] at parts
      obtain ⟨outputs,same,own⟩ := open_shards (o := env.overhead) (buildEach_ok built) (fun s member i inside => by
        have there := (parts i).mp ⟨s,member,inside⟩
        exact ⟨addAll_entriesIn i there,kept version parameters i there⟩) small
      exact ⟨outputs,same,fun rest m m' before after untied =>
        ((replaces_of_builders own parts).beside before after).GetInfo untied⟩

end Epoch

section Combine

def smallIndexEntryCountThreshold : Nat := 100

inductive CombineError
  | iterating (e : ReadError)
  | mutableParameters
  | building (e : BuildIndexError)
  | opening (e : OpenIndexError)

/-- Adds the entries of the indexes, up to the first whose iteration fails. -/
def addIndexes : Builder → List (OpenedIndex ReadError) → Except CombineError Builder
  | b, [] => .ok b
  | b, ndx :: rest =>
    match (ndx.Iterate AllIDs).2 with
    | some e => .error (.iterating e)
    | none => addIndexes (b.addAll (ndx.Iterate AllIDs).1) rest

def isSmall (ndx : OpenedIndex ReadError) : Bool := ndx.ApproximateCount < smallIndexEntryCountThreshold

/-- The file in memory that the small indexes are combined in. -/
def combinedFile (getMutableParameters : Option Int) (random : Option Bytes) (toMerge : List (OpenedIndex ReadError)) :
    Except CombineError Bytes :=
  match addIndexes Builder.empty toMerge with
  | .error e => .error e
  | .ok b =>
    match getMutableParameters with
    | none => .error .mutableParameters
    | some indexVersion => (b.Build indexVersion random).mapError .building

/-- `combineSmallIndexes` of the committed content index. -/
def combineSmallIndexes (v1PerContentOverhead : Nat) (getMutableParameters : Option Int) (random : Option Bytes)
    (m : List (OpenedIndex ReadError)) : Except CombineError (List (OpenedIndex ReadError)) :=
  let toMerge := m.filter isSmall
  let toKeep := m.filter fun ndx => !isSmall ndx
  if toMerge.length ≤ 1 then .ok m
  else
    match combinedFile getMutableParameters random toMerge with
    | .error e => .error e
    | .ok buf =>
      match Open v1PerContentOverhead buf with
      | .error e => .error (.opening e)
      | .ok combined => .ok (toKeep ++ [combined.opened []])

variable {o : Nat} {files : List (IndexFile o)}

/-- The opened files, as the callers of the index package see them. -/
def openedFiles (files : List (IndexFile o)) : List (OpenedIndex ReadError) :=
  (indexes files).map ValidIndex.toOpenedIndex

/-- The files of small indexes. -/
def smallFiles (files : List (IndexFile o)) : List (IndexFile o) := files.filter fun file => isSmall file.index.toOpenedIndex

theorem filter_openedFiles (p : OpenedIndex ReadError → Bool) (files : List (IndexFile o)) :
    (openedFiles files).filter p = openedFiles (files.filter fun file => p file.index.toOpenedIndex) := by
  simp only [openedFiles,indexes,List.map_map,List.filter_map]
  rfl

theorem addIndexes_files (files : List (IndexFile o)) (b : Builder) :
    addIndexes b (openedFiles files) = .ok (b.addAll (entriesIn files)) := by
  induction files generalizing b with
  | nil => rfl
  | cons file files ih =>
    have iterated : file.index.Iterate AllIDs = (file.index.entries,none) := by
      rw [file.index.iterates]
      simp [AllIDs_contains]
    show addIndexes b (file.index.toOpenedIndex :: openedFiles files) = _
    rw [addIndexes,iterated]
    dsimp only
    rw [ih,entriesIn,entriesIn,List.flatMap_cons,Builder.addAll,Builder.addAll,Builder.addAll,List.foldl_append]

theorem combineSmallIndexes_answers {getMutableParameters : Option Int} {random : Option Bytes}
    {combined : List (OpenedIndex ReadError)}
    (kept : ∀ version, getMutableParameters = some version →
      ∀ i ∈ (Builder.empty.addAll (entriesIn (smallFiles files))).infos, i.Kept version o)
    (small : ∀ buf, combinedFile getMutableParameters random (openedFiles (smallFiles files)) = .ok buf →
      buf.length < 2 ^ 32)
    (done : combineSmallIndexes o getMutableParameters random (openedFiles files) = .ok combined) :
    ∃ outputs : List (IndexFile o), combined = openedFiles outputs ∧ AnswersAs (indexes files) (indexes outputs) := by
  unfold combineSmallIndexes at done
  rw [filter_openedFiles,filter_openedFiles] at done
  dsimp only at done
  split at done
  next =>
    cases Except.ok.inj done
    refine ⟨files,rfl,fun rest m m' before after untied id => ?_⟩
    have same : Replaces (indexes files) (indexes files) :=
      ⟨fun ndx member i inside => ⟨ndx,member,inside⟩,fun ndx member i inside => ⟨ndx,member,i,inside,rfl,le_refl _⟩⟩
    exact (same.beside before after).GetInfo untied id
  next =>
    split at done
    next => contradiction
    next buf written =>
      have length := small buf written
      unfold combinedFile at written
      rw [addIndexes_files] at written
      cases parameters : getMutableParameters with
      | none => simp [parameters] at written
      | some version =>
        simp only [parameters] at written
        cases built : (Builder.empty.addAll (entriesIn (smallFiles files))).Build version random with
        | error e =>
          rw [smallFiles] at built
          rw [built] at written
          contradiction
        | ok bytes =>
          rw [← smallFiles,built] at written
          cases Except.ok.inj written
          obtain ⟨out,trailing,stable,rfl⟩ := Builder.Build_ok built
          rw [List.length_append] at length
          have fields : ∀ i ∈ (Builder.empty.addAll (entriesIn (smallFiles files))).infos,
              i.contentID.Valid ∧ i.InRange := addAll_entriesIn
          obtain ⟨file,own,entries⟩ := BuildStable_opens stable (fun i member => (fields i member).1)
            (fun i member => (fields i member).2) (by omega) o (fun i member => kept version parameters i member) trailing
          rw [← own,file.opens] at done
          cases Except.ok.inj done
          refine ⟨(files.filter fun file => !isSmall file.index.toOpenedIndex) ++ [file],?_,
            fun rest m m' before after untied id => ?_⟩
          · rw [file.answers [] file.ndx.remembers_nil,openedFiles,openedFiles,indexes,indexes,List.map_append,List.map_append]
            rfl
          · have replaces : Replaces (indexes (smallFiles files)) (indexes [file]) :=
              replaces_of_builders (.cons entries .nil) (by simp)
            have parts : (indexes files).Perm (indexes (files.filter fun file => !isSmall file.index.toOpenedIndex) ++
                indexes (smallFiles files)) := by
              rw [indexes,indexes,indexes,← List.map_append]
              refine List.Perm.map _ ?_
              exact ((List.filter_append_perm (fun file : IndexFile o => isSmall file.index.toOpenedIndex) files).symm.trans
                List.perm_append_comm)
            have old : m.Perm (rest ++ indexes (files.filter fun file => !isSmall file.index.toOpenedIndex) ++
                indexes (smallFiles files)) := by
              rw [List.append_assoc]
              exact before.trans (parts.append_left rest)
            refine (replaces.beside old ?_).GetInfo untied id
            · rw [List.append_assoc]
              refine after.trans ?_
              rw [indexes,indexes,indexes,List.map_append]

end Combine

section Claim

/-- Compactions and the combination of small indexes keep the answers of every merge, as long
as the format they write holds the times and the original lengths. -/
theorem compaction_preserves :
    (∀ (env : Surroundings) (blobIDs : List BlobID) (outputPrefix : BlobID) (inputs : List (IndexFile env.overhead)),
      List.Forall₂ (fun blobID file => env.getEncryptedBlob blobID = some (IndexFile.data file)) blobIDs inputs →
      (∀ version, env.getMutableParameters = some version →
        ∀ i ∈ (Builder.empty.addAll (entriesIn inputs)).infos, i.Kept version env.overhead) →
      (CompactEpoch env blobIDs outputPrefix).2 = none → ∃ dataShards suffix,
        List.Forall₂ (fun data blob => env.encrypt data outputPrefix suffix = some blob) dataShards
          (CompactEpoch env blobIDs outputPrefix).1 ∧
        ((∀ data ∈ dataShards, data.length < 2 ^ 32) → ∃ outputs : List (IndexFile env.overhead),
          outputs.map IndexFile.data = dataShards ∧ AnswersAs (indexes inputs) (indexes outputs))) ∧
    ∀ (o : Nat) (files : List (IndexFile o)) (getMutableParameters : Option Int) (random : Option Bytes)
      (combined : List (OpenedIndex ReadError)),
      (∀ version, getMutableParameters = some version →
        ∀ i ∈ (Builder.empty.addAll (entriesIn (smallFiles files))).infos, i.Kept version o) →
      (∀ buf, combinedFile getMutableParameters random (openedFiles (smallFiles files)) = .ok buf →
        buf.length < 2 ^ 32) →
      combineSmallIndexes o getMutableParameters random (openedFiles files) = .ok combined →
      ∃ outputs : List (IndexFile o), combined = openedFiles outputs ∧ AnswersAs (indexes files) (indexes outputs) :=
  ⟨fun _ _ _ _ read kept done => CompactEpoch_answers read kept done,
    fun _ _ _ _ _ kept small done => combineSmallIndexes_answers kept small done⟩

/-- Storage that holds an index of version 2 under every name. -/
def rewritingStorage (version : Int) : Surroundings where
  getEncryptedBlob := fun _ => some (fileBytes [deletedInfo])
  overhead := 0
  getMutableParameters := some version
  randomSuffixes := [some []]
  randomSession := some []
  encrypt data outputPrefix suffix := some (outputPrefix ++ suffix,data)
  putBlob := fun _ => true
  registerCompaction := fun _ _ => true

/-- The file that the storage holds. -/
theorem rewritten_file (version : Int) : ∃ file : IndexFile (rewritingStorage version).overhead,
    (rewritingStorage version).getEncryptedBlob [1] = some file.data ∧ entriesIn [file] = [deletedInfo] := by
  have built : (Builder.empty.set deletedInfo).BuildStable 2 = .ok (fileBytes [deletedInfo]) := by
    rw [Builder.BuildStable,deletedInfo_built]
    rfl
  have alone : ∀ i ∈ (Builder.empty.set deletedInfo).infos, i = deletedInfo := by
    intro i member
    simpa [Builder.infos,Builder.set,Builder.empty] using member
  obtain ⟨file,data,entries⟩ := BuildStable_opens (b := Builder.empty.set deletedInfo) built (by decide)
    (fun i member => (alone i member).symm ▸ ⟨by decide,by decide,by decide,by decide⟩) (by decide)
    0 (fun i member => (alone i member).symm ▸ ⟨by decide,by decide⟩) []
  refine ⟨file,?_,?_⟩
  · rw [data,List.append_nil]
    rfl
  · show file.index.entries ++ [] = [deletedInfo]
    rw [List.append_nil,entries,deletedInfo_sorted]

theorem CompactEpoch_rewritten {version : Int} {out : Bytes}
    (built : (Builder.empty.addAll [deletedInfo]).BuildStable version = .ok out) :
    CompactEpoch (rewritingStorage version) [[1]] [120] = ([([120,115,45,99,49],out)],none) := by
  obtain ⟨file,read,entries⟩ := rewritten_file version
  obtain ⟨added,whole⟩ := collected_files (.cons read .nil)
  rw [entries] at whole
  have alone : (collected (rewritingStorage version) [[1]]).infos = [deletedInfo] := by
    rw [whole]
    decide
  rw [CompactEpoch,added]
  show writeEpoch (rewritingStorage version) [120]
    (Builder.BuildShards (collected (rewritingStorage version) [[1]]) version true DefaultIndexShardSize [some []]) = _
  rw [BuildShards_single alone (whole ▸ built)]
  have suffix : sessionID [] 1 = [115,45,99,49] := by decide
  simp [writeEpoch,writeShards,rewritingStorage,suffix]

/-- A lookup in a file of one entry. -/
theorem GetInfo_single {o : Nat} {file : IndexFile o} {i : Info} (entries : entriesIn [file] = [i]) :
    Merged.GetInfo (openedFiles [file]) i.contentID = .ok (some i) := by
  have own : file.index.entries = [i] := by simpa [entriesIn] using entries
  have accepted : Accepted (indexes [file]) i.contentID := by
    intro ndx member j inside
    have same : ndx = file.index := by simpa [indexes] using member
    rw [same,own,List.mem_singleton] at inside
    rw [inside]
  rw [Merged.GetInfo,openedFiles,Merged.getInfoLoop_eq _ _ accepted]
  simp [entriesOf,indexes,own,best,Builder.winner]

theorem BuildStable_deletedInfo : (Builder.empty.addAll [deletedInfo]).BuildStable 1 = .ok (fileBytesV1 [deletedInfo]) := by
  have sorted : (Builder.empty.addAll [deletedInfo]).sortedContents = [deletedInfo] :=
    sortedContents_single (by decide) (by decide)
  have written : WrittenV1 [deletedInfo] 2 :=
    ⟨by decide,by decide,by decide,by decide,by decide,by decide,by decide,by decide⟩
  have done := buildV1_written (sorted ▸ written)
  rw [sorted] at done
  rw [Builder.BuildStable,done]
  rfl

/-- Written again as version 1, an entry has another original length. -/
theorem CompactEpoch_forgets_originalLength : ∃ input output : IndexFile (rewritingStorage 1).overhead,
    (rewritingStorage 1).getEncryptedBlob [1] = some input.data ∧
    CompactEpoch (rewritingStorage 1) [[1]] [120] = ([([120,115,45,99,49],output.data)],none) ∧
    Merged.GetInfo (openedFiles [input]) deletedInfo.contentID = .ok (some deletedInfo) ∧
    Merged.GetInfo (openedFiles [output]) deletedInfo.contentID = .ok (some {deletedInfo with originalLength := 7}) := by
  obtain ⟨input,read,entries⟩ := rewritten_file 1
  have written : WrittenV1 [deletedInfo] 2 :=
    ⟨by decide,by decide,by decide,by decide,by decide,by decide,by decide,by decide⟩
  obtain ⟨out,ndx,index,done,opened,answers,own⟩ := single_opens written deletedInfo_encodable
  have ids : ∀ i ∈ index.entries, i.contentID.Valid := by
    rw [own]
    decide
  have file : out = fileBytesV1 [deletedInfo] := by
    have built := buildV1_written (b := Builder.empty.set deletedInfo) (deletedInfo_sorted.symm ▸ written)
    rw [deletedInfo_sorted] at built
    exact Except.ok.inj (done.symm.trans built)
  subst file
  refine ⟨input,⟨_,ndx,index,opened,answers,ids⟩,read,?_,GetInfo_single entries,?_⟩
  · exact CompactEpoch_rewritten BuildStable_deletedInfo
  · exact GetInfo_single (i := deletedInfo.stored 0) (by simpa [entriesIn] using own)

/-- Written again as version 2, the same entry is kept. -/
theorem compaction_preserves_deletedInfo : ∃ input output : IndexFile (rewritingStorage 2).overhead,
    (rewritingStorage 2).getEncryptedBlob [1] = some input.data ∧
    CompactEpoch (rewritingStorage 2) [[1]] [120] = ([([120,115,45,99,49],output.data)],none) ∧
    AnswersAs (indexes [input]) (indexes [output]) ∧
    ∃ outputs : List (IndexFile (rewritingStorage 2).overhead),
      [] = openedFiles outputs ∧ AnswersAs [] (indexes outputs) := by
  obtain ⟨input,read,entries⟩ := rewritten_file 2
  have sorted : (Builder.empty.addAll [deletedInfo]).sortedContents = [deletedInfo] :=
    sortedContents_single (by decide) (by decide)
  have built : (Builder.empty.addAll [deletedInfo]).BuildStable 2 = .ok (fileBytes [deletedInfo]) := by
    have written : Written [deletedInfo] 2 :=
      ⟨⟨by decide,by decide,by decide,by decide,by decide⟩,by decide,by decide,by decide,by decide⟩
    have done : (Builder.empty.addAll [deletedInfo]).buildV2 = _ := buildV2_written (sorted.symm ▸ written)
    rw [sorted] at done
    rw [Builder.BuildStable,done]
    rfl
  have published := CompactEpoch_rewritten built
  have kept : ∀ i ∈ (Builder.empty.addAll [deletedInfo]).infos, i.Kept 2 0 := by
    intro i member
    have same : i = deletedInfo := by
      have infos : (Builder.empty.addAll [deletedInfo]).infos = [deletedInfo] := by decide
      simpa [infos] using member
    exact same ▸ ⟨by decide,by decide⟩
  obtain ⟨epochs,combines⟩ := compaction_preserves
  obtain ⟨dataShards,suffix,encrypted,opens⟩ := epochs (rewritingStorage 2) [[1]] [120] [input] (.cons read .nil)
    (fun version same => by
      cases Option.some.inj same
      rw [entries]
      exact kept) (by rw [published])
  rw [published] at encrypted
  have shards : dataShards = [fileBytes [deletedInfo]] := by
    cases encrypted with
    | cons first none =>
      cases none
      simpa [rewritingStorage] using (Prod.ext_iff.mp (Option.some.inj first)).2
  obtain ⟨outputs,data,answers⟩ := opens (by rw [shards]; decide)
  obtain ⟨output,rfl⟩ : ∃ output, outputs = [output] := by
    rw [shards] at data
    exact List.map_eq_singleton_iff.mp data |>.imp fun output => And.left
  have nothing : ∀ buf, combinedFile (some 2) (some []) [] = .ok buf → buf.length < 2 ^ 32 := by
    intro buf done
    obtain ⟨e,failed,_⟩ := buildV2_unencodable (b := Builder.empty) (Or.inl rfl)
    have whole : combinedFile (some 2) (some []) [] = .error (.building (.v2 e)) := by
      simp only [combinedFile,addIndexes,Builder.Build,Builder.BuildStable,failed]
      rfl
    rw [whole] at done
    contradiction
  refine ⟨input,output,read,?_,answers,combines _ [] (some 2) (some []) [] (fun _ _ => by simp [smallFiles,entriesIn,Builder.addAll,Builder.infos,Builder.empty]) nothing rfl⟩
  rw [shards] at data
  rw [published,← List.singleton_inj.mp data]

end Claim

end Vbe.IndexBlob
