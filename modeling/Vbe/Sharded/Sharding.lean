import Vbe.Library.Paths

/-! Where a sharded storage keeps its blobs. -/
namespace Vbe.Sharded
open Vbe.Library.Paths

/-- `blob.ID`. -/
abbrev ID := List UInt8

structure PrefixAndShards where
  Prefix : ID
  Shards : List Nat

/-- The sizes of shards are not negative. -/
structure Parameters where
  DefaultShards : List Nat
  UnshardedLength : Int
  Overrides : List PrefixAndShards

def Parameters.getShardsForBlobID (p : Parameters) (id : ID) : List Nat :=
  match p.Overrides.find? fun o => o.Prefix.isPrefixOf id with
  | some o => o.Shards
  | none => p.DefaultShards

/-- The loop over the sizes of the shards. -/
def cutShards : List Nat → Path → ID → Path × ID
  | [],shardPath,blobID => (shardPath,blobID)
  | size :: sizes,shardPath,blobID =>
    if blobID.length ≤ size then (shardPath,blobID)
    else cutShards sizes (Join shardPath (blobID.take size)) (blobID.drop size)

def Parameters.GetShardDirectoryAndBlob (p : Parameters) (rootPath : Path) (blobID : ID) : Path × ID :=
  if blobID.length ≤ p.UnshardedLength then (rootPath,blobID) else cutShards (p.getShardsForBlobID blobID) rootPath blobID

/-- `.f`. -/
def CompleteBlobSuffix : List UInt8 := [46,102]

/-- `.shards`. -/
def ParametersFile : List UInt8 := [46,115,104,97,114,100,115]

def getBlobIDFromFileName (name : List UInt8) : Option ID :=
  if CompleteBlobSuffix.isSuffixOf name then some (name.take (name.length - CompleteBlobSuffix.length)) else none

def makeFileName (blobID : ID) : List UInt8 := blobID ++ CompleteBlobSuffix

structure Storage where
  RootPath : Path
  ListParallelism : Int
  parameters : Parameters

def Storage.GetShardedPathAndFilePath (s : Storage) (blobID : ID) : Path × Path :=
  let (shardPath,blobID) := s.parameters.GetShardDirectoryAndBlob s.RootPath blobID
  (shardPath,Join shardPath (makeFileName blobID))

/-- An ID whose parts cannot be mistaken for special names, nor for the names of files. -/
def Clear (id : ID) : Prop := slash ∉ id ∧ 46 ∉ id

section Cutting
variable {id id' : ID} {p : Parameters} {root : Path}

theorem Clear.plain (clear : Clear id) (some : id ≠ []) : Plain id := by
  refine ⟨clear.1,some,?_,?_⟩
  · rintro rfl
    exact clear.2 (by decide)
  · rintro rfl
    exact clear.2 (by decide)

theorem Clear.of_subset (clear : Clear id) (inside : id' ⊆ id) : Clear id' :=
  ⟨fun member => clear.1 (inside member),fun member => clear.2 (inside member)⟩

/-- The directories below a path that an ID is kept in are its first parts, and what is left is the rest of it. -/
structure Split (id : ID) (parts : List ID) (rest : ID) : Prop where
  whole : parts.flatten ++ rest = id
  clear : ∀ part ∈ parts, Clear part ∧ part ≠ []

theorem cutShards_split (clear : Clear id) (sizes : List Nat) (path : Path) :
    ∃ parts, Split id parts (cutShards sizes path id).2 ∧ names (cutShards sizes path id).1 = names path ++ parts := by
  induction sizes generalizing path id with
  | nil => exact ⟨[],⟨rfl,by simp⟩,by simp [cutShards]⟩
  | cons size sizes ih =>
    rw [cutShards]
    split
    next => exact ⟨[],⟨rfl,by simp⟩,by simp⟩
    next longer =>
      obtain ⟨parts,split,named⟩ := ih (clear.of_subset (List.drop_subset size id)) (Join path (id.take size))
      have whole : id.take size ++ (parts.flatten ++ (cutShards sizes (Join path (id.take size)) (id.drop size)).2) = id := by
        rw [split.whole,List.take_append_drop]
      by_cases none : id.take size = []
      · rw [none,names_Join_nil] at named
        rw [none,List.nil_append] at whole
        exact ⟨parts,⟨none ▸ whole,split.clear⟩,none ▸ named⟩
      · have part : Clear (id.take size) := clear.of_subset (List.take_subset size id)
        refine ⟨id.take size :: parts,⟨?_,?_⟩,?_⟩
        · rw [List.flatten_cons,List.append_assoc,whole]
        · intro q member
          rcases List.mem_cons.mp member with rfl | later
          · exact ⟨part,none⟩
          · exact split.clear q later
        · rw [named,names_Join (part.plain none),List.append_assoc]
          rfl

theorem GetShardDirectoryAndBlob_split (p : Parameters) (root : Path) (clear : Clear id) :
    ∃ parts, Split id parts (p.GetShardDirectoryAndBlob root id).2 ∧
      names (p.GetShardDirectoryAndBlob root id).1 = names root ++ parts := by
  rw [Parameters.GetShardDirectoryAndBlob]
  split
  next => exact ⟨[],⟨rfl,by simp⟩,by simp⟩
  next => exact cutShards_split clear _ _

theorem Split.same {parts parts' : List ID} {rest rest' : ID} (split : Split id parts rest) (split' : Split id' parts' rest')
    (parts_same : parts = parts') (rest_same : rest = rest') : id = id' := by
  rw [← split.whole,← split'.whole,parts_same,rest_same]

/-- Different blobs are kept in different directories, or under different names in the same one. -/
theorem GetShardDirectoryAndBlob_injective (clear : Clear id) (clear' : Clear id')
    (same : p.GetShardDirectoryAndBlob root id = p.GetShardDirectoryAndBlob root id') : id = id' := by
  obtain ⟨parts,split,named⟩ := GetShardDirectoryAndBlob_split p root clear
  obtain ⟨parts',split',named'⟩ := GetShardDirectoryAndBlob_split p root clear'
  rw [same] at split named
  exact split.same split' (List.append_cancel_left (named.symm.trans named')) rfl

theorem makeFileName_plain (clear : Clear id) : Plain (makeFileName id) := by
  rw [makeFileName,CompleteBlobSuffix]
  refine ⟨?_,by simp,fun same => ?_,fun same => ?_⟩
  · have clean : (47 : UInt8) ∉ id := clear.1
    simp [clean,slash]
  · have total := congrArg List.length same
    simp [dot] at total
  · have last := congrArg List.getLast? same
    simp [dotDot] at last

theorem makeFileName_injective {rest rest' : ID} (same : makeFileName rest = makeFileName rest') : rest = rest' :=
  List.append_cancel_right same

@[simp] theorem getBlobIDFromFileName_makeFileName (id : ID) : getBlobIDFromFileName (makeFileName id) = some id := by
  rw [getBlobIDFromFileName,makeFileName,if_pos (List.isSuffixOf_iff_suffix.mpr (List.suffix_append _ _))]
  simp

/-- The names that lead to a blob. -/
def Storage.location (s : Storage) (blobID : ID) : List Path := names (s.GetShardedPathAndFilePath blobID).2

theorem location_split (s : Storage) (clear : Clear id) :
    ∃ parts rest, Split id parts rest ∧ s.location id = names s.RootPath ++ parts ++ [makeFileName rest] := by
  obtain ⟨parts,split,named⟩ := GetShardDirectoryAndBlob_split s.parameters s.RootPath clear
  refine ⟨parts,_,split,?_⟩
  have rest_clear : Clear (s.parameters.GetShardDirectoryAndBlob s.RootPath id).2 :=
    clear.of_subset fun c member => split.whole ▸ List.mem_append_right _ member
  rw [Storage.location,Storage.GetShardedPathAndFilePath]
  rw [names_Join (makeFileName_plain rest_clear),named]

theorem location_injective (s : Storage) (clear : Clear id) (clear' : Clear id') (same : s.location id = s.location id') : id = id' := by
  obtain ⟨parts,rest,split,here⟩ := location_split s clear
  obtain ⟨parts',rest',split',here'⟩ := location_split s clear'
  have names := here.symm.trans (same.trans here')
  rw [List.append_assoc,List.append_assoc] at names
  obtain ⟨parts_same,last_same⟩ := List.append_inj' (List.append_cancel_left names) rfl
  exact split.same split' parts_same (makeFileName_injective (List.cons.inj last_same).1)

end Cutting

end Vbe.Sharded
