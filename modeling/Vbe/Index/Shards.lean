import Vbe.Index.Version1

/-! Builders that are written out as several files. The entries are divided by a hash of
their identifiers; every file is one builder in either version, with random bytes after
it where two equal builders shall not make equal files. -/
namespace Vbe.Index
open Vbe.Library.Bytes

section Hash

/-- `fnv.New32a`. -/
def fnv32a (s : Bytes) : UInt32 := s.foldl (fun h c => (h ^^^ UInt32.ofNat c.toNat) * 16777619) 2166136261

/-- The shard of an identifier. The number of shards is taken as 32 bits. -/
def shardIndex (numShards : Nat) (k : ID) : Nat := (fnv32a k.String).toNat % (numShards % 2 ^ 32)

end Hash

section Shard

/-- `result[shard][k] = v`. -/
def placeInShard (numShards : Nat) (result : List Builder) (v : Info) : List Builder :=
  result.modify (shardIndex numShards v.contentID) fun r => r.set v

/-- `none` stands for the panic of dividing by a number of shards that is zero in 32 bits. -/
def Builder.shard (b : Builder) (maxShardSize : Nat) : Option (List Builder) :=
  let numShards := (b.infos.length + maxShardSize - 1) / maxShardSize
  if numShards ≤ 1 then
    if b.infos.length = 0 then some [] else some [b]
  else if numShards % 2 ^ 32 = 0 then none
  else
    let result := b.infos.foldl (placeInShard numShards) (List.replicate numShards Builder.empty)
    some (result.filter fun r => r.infos.length > 0)

/-- Each shard holds the entries among those seen so far that belong to it. -/
def Placed (numShards : Nat) (seen : List Info) (result : List Builder) : Prop :=
  ∀ n s, result[n]? = some s → ∀ i, i ∈ s.infos ↔ i ∈ seen ∧ shardIndex numShards i.contentID = n

theorem Placed.step {numShards : Nat} {seen : List Info} {result : List Builder} (placed : Placed numShards seen result)
    {v : Info} (fresh : ∀ i ∈ seen, i.contentID ≠ v.contentID) :
    Placed numShards (seen ++ [v]) (placeInShard numShards result v) := by
  intro n s found i
  rw [placeInShard,List.getElem?_modify] at found
  rw [List.mem_append,List.mem_singleton]
  by_cases own : shardIndex numShards v.contentID = n
  · obtain ⟨r,there,rfl⟩ : ∃ r, result[n]? = some r ∧ r.set v = s := by simpa [own] using found
    have before := placed n r there i
    rw [Builder.mem_infos] at before ⊢
    rw [Builder.get?_set]
    split
    next same =>
      constructor
      · intro equal
        cases Option.some.inj equal
        exact ⟨Or.inr rfl,own⟩
      · rintro ⟨old | rfl,_⟩
        · exact absurd same (fresh i old)
        · rfl
    next other =>
      rw [before]
      constructor
      · exact fun old => ⟨Or.inl old.1,old.2⟩
      · rintro ⟨old | rfl,shard⟩
        · exact ⟨old,shard⟩
        · exact absurd rfl other
  · have kept : result[n]? = some s := by simpa [own] using found
    rw [placed n s kept i]
    constructor
    · exact fun old => ⟨Or.inl old.1,old.2⟩
    · rintro ⟨old | rfl,shard⟩
      · exact ⟨old,shard⟩
      · exact absurd shard own

theorem Placed.foldl {numShards : Nat} (l : List Info) {seen : List Info} {result : List Builder}
    (placed : Placed numShards seen result) (distinct : ((seen ++ l).map Info.contentID).Nodup) :
    Placed numShards (seen ++ l) (l.foldl (placeInShard numShards) result) := by
  induction l generalizing seen result with
  | nil => simpa using placed
  | cons v l ih =>
    have fresh : ∀ i ∈ seen, i.contentID ≠ v.contentID := by
      intro i member
      rw [List.map_append] at distinct
      exact (List.nodup_append.mp distinct).2.2 _ (List.mem_map_of_mem member) _ (by simp)
    have shape : seen ++ v :: l = (seen ++ [v]) ++ l := by simp
    rw [shape] at distinct ⊢
    exact ih (placed.step fresh) distinct

theorem length_foldl_placeInShard (numShards : Nat) (l : List Info) (result : List Builder) :
    (l.foldl (placeInShard numShards) result).length = result.length := by
  induction l generalizing result with
  | nil => rfl
  | cons v l ih => rw [List.foldl_cons,ih,placeInShard,List.length_modify]

/-- The shards hold the entries of the builder, and none of them is empty. -/
theorem Builder.shard_infos {b : Builder} {maxShardSize : Nat} {shards : List Builder}
    (done : b.shard maxShardSize = some shards) :
    (∀ s ∈ shards, s.infos ≠ []) ∧ ∀ i, (∃ s ∈ shards, i ∈ s.infos) ↔ i ∈ b.infos := by
  unfold Builder.shard at done
  dsimp only at done
  split at done
  next =>
    split at done
    next none =>
      cases Option.some.inj done
      have empty := List.eq_nil_of_length_eq_zero none
      simp [empty]
    next some =>
      cases Option.some.inj done
      refine ⟨fun s member => ?_,fun i => by simp⟩
      rw [List.mem_singleton.mp member]
      exact fun none => some (by rw [none]; rfl)
  next many =>
    split at done
    next => contradiction
    next nonzero =>
      cases Option.some.inj done
      generalize (b.infos.length + maxShardSize - 1) / maxShardSize = numShards at many nonzero ⊢
      have start : Placed numShards [] (List.replicate numShards Builder.empty) := by
        intro n s found i
        have empty : s = Builder.empty := by
          rw [List.getElem?_replicate] at found
          split at found
          next => exact (Option.some.inj found).symm
          next => contradiction
        simp [empty,Builder.mem_infos]
      have placed := start.foldl b.infos (by simpa using b.nodup_contentIDs)
      rw [List.nil_append] at placed
      have length := length_foldl_placeInShard numShards b.infos (List.replicate numShards Builder.empty)
      rw [List.length_replicate] at length
      refine ⟨fun s member none => ?_,fun i => ⟨?_,fun member => ?_⟩⟩
      · simpa [none] using (List.mem_filter.mp member).2
      · rintro ⟨s,member,inside⟩
        obtain ⟨n,found⟩ := List.mem_iff_getElem?.mp (List.mem_filter.mp member).1
        exact ((placed n s found i).mp inside).1
      · have small : shardIndex numShards i.contentID < numShards :=
          lt_of_lt_of_le (Nat.mod_lt _ (by omega)) (Nat.mod_le _ _)
        have found := List.getElem?_eq_getElem (lt_of_lt_of_eq small length.symm)
        have inside := (placed _ _ found i).mpr ⟨member,rfl⟩
        refine ⟨_,List.mem_filter.mpr ⟨List.mem_of_getElem? found,?_⟩,inside⟩
        exact decide_eq_true (List.length_pos_of_mem inside)

/-- A builder that is small enough stays whole. -/
theorem Builder.shard_whole {b : Builder} {maxShardSize : Nat} (some : b.infos.length ≠ 0)
    (small : b.infos.length ≤ maxShardSize) : b.shard maxShardSize = Option.some [b] := by
  have one : (b.infos.length + maxShardSize - 1) / maxShardSize ≤ 1 := by
    have below : (b.infos.length + maxShardSize - 1) / maxShardSize < 2 :=
      Nat.div_lt_of_lt_mul (by omega)
    omega
  unfold Builder.shard
  simp only [if_pos one,if_neg some]

end Shard

section Build

inductive BuildIndexError
  | v1 (e : BuildErrorV1)
  | v2 (e : BuildError)
  | unsupportedIndexVersion (version : Int)
  | invalidShardSize
  | randomBytes
  /-- The panic of `shard`. -/
  | panicked
deriving DecidableEq

def Builder.BuildStable (b : Builder) (version : Int) : Except BuildIndexError Bytes :=
  if version = Version1.toNat then b.buildV1.mapError .v1
  else if version = Version2.toNat then b.buildV2.mapError .v2
  else .error (.unsupportedIndexVersion version)

/-- `random` is what `rand.Read` delivers, `none` where it fails. -/
def Builder.Build (b : Builder) (version : Int) (random : Option Bytes) : Except BuildIndexError Bytes :=
  match b.BuildStable version with
  | .error e => .error e
  | .ok output =>
    match random with
    | none => .error .randomBytes
    | some randomSuffix => .ok (output ++ randomSuffix)

/-- The shards one after the other, with the random bytes for the rest of them. -/
def buildEach (indexVersion : Int) (stable : Bool) : List Builder → List (Option Bytes) → Except BuildIndexError (List Bytes)
  | [], _ => .ok []
  | s :: rest, random =>
    match if stable then s.BuildStable indexVersion else s.Build indexVersion (random.headD none) with
    | .error e => .error e
    | .ok data =>
      match buildEach indexVersion stable rest random.tail with
      | .error e => .error e
      | .ok dataShards => .ok (data :: dataShards)

def Builder.BuildShards (b : Builder) (indexVersion : Int) (stable : Bool) (shardSize : Nat) (random : List (Option Bytes)) :
    Except BuildIndexError (List Bytes) :=
  if shardSize = 0 then .error .invalidShardSize
  else match b.shard shardSize with
    | none => .error .panicked
    | some shardedBuilders => buildEach indexVersion stable shardedBuilders random

theorem Builder.Build_ok {b : Builder} {version : Int} {random : Option Bytes} {data : Bytes}
    (done : b.Build version random = .ok data) :
    ∃ out trailing, b.BuildStable version = .ok out ∧ data = out ++ trailing := by
  unfold Builder.Build at done
  split at done
  next => contradiction
  next output built =>
    split at done
    next => contradiction
    next randomSuffix => exact ⟨output,randomSuffix,built,(Except.ok.inj done).symm⟩

theorem buildEach_ok {indexVersion : Int} {stable : Bool} {shards : List Builder} {random : List (Option Bytes)}
    {dataShards : List Bytes} (done : buildEach indexVersion stable shards random = .ok dataShards) :
    List.Forall₂ (fun s data => ∃ out trailing, s.BuildStable indexVersion = .ok out ∧ data = out ++ trailing)
      shards dataShards := by
  induction shards generalizing random dataShards with
  | nil =>
    cases Except.ok.inj done
    exact List.Forall₂.nil
  | cons s rest ih =>
    unfold buildEach at done
    split at done
    next => contradiction
    next data built =>
      split at done
      next => contradiction
      next others further =>
        cases Except.ok.inj done
        refine List.Forall₂.cons ?_ (ih further)
        split at built
        next => exact ⟨data,[],built,(List.append_nil data).symm⟩
        next => exact Builder.Build_ok built

end Build

end Vbe.Index
