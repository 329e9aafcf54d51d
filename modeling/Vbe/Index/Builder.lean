import Vbe.Index.Id
import Mathlib.Data.List.AList
import Mathlib.Data.Prod.Lex

/-! Index entries, the rule that decides which of two entries for one content
wins, index builders and the sorted list a builder is written out as. A builder
is a finite map whose keys are the identifiers of its entries. -/
namespace Vbe.Index
open Vbe.Library.Bytes

/-- A blob name, as its bytes. -/
abbrev BlobID := Bytes

structure Info where
  packBlobID : BlobID
  timestampSeconds : Int
  originalLength : UInt32
  packedLength : UInt32
  packOffset : UInt32
  compressionHeaderID : UInt32
  contentID : ID
  deleted : Bool
  formatVersion : UInt8
  encryptionKeyID : UInt8
deriving DecidableEq

/-- The later entry wins; at equal times a live entry beats a deletion, and pack
names break the remaining ties. -/
def contentInfoGreaterThanStruct (a b : Info) : Bool :=
  if a.timestampSeconds ≠ b.timestampSeconds then a.timestampSeconds > b.timestampSeconds
  else if a.deleted ≠ b.deleted then !a.deleted
  else a.packBlobID > b.packBlobID

/-- What the rule compares two entries by. -/
def Info.rank (i : Info) : Int ×ₗ Bool ×ₗ BlobID := toLex (i.timestampSeconds,toLex (!i.deleted,i.packBlobID))

theorem contentInfoGreaterThanStruct_iff {a b : Info} : contentInfoGreaterThanStruct a b ↔ b.rank < a.rank := by
  unfold contentInfoGreaterThanStruct Info.rank
  simp only [Prod.Lex.toLex_lt_toLex]
  by_cases time : a.timestampSeconds = b.timestampSeconds
  · cases a.deleted <;> cases b.deleted <;> simp [time]
  · simp [time,Ne.symm time]

/-- The three fields that the rule looks at. -/
def Info.ruled (i : Info) : Int × Bool × BlobID := (i.timestampSeconds,i.deleted,i.packBlobID)

theorem Info.rank_eq_iff {a b : Info} : a.rank = b.rank ↔ a.ruled = b.ruled := by
  simp [Info.rank,Info.ruled]

theorem contentInfoGreaterThanStruct_eq_false {a b : Info} :
    contentInfoGreaterThanStruct a b = false ↔ a.rank ≤ b.rank := by
  rw [← Bool.not_eq_true,contentInfoGreaterThanStruct_iff,not_lt]

structure Builder where
  contents : AList (fun _ : ID => Info)
  keyed : ∀ id info, contents.lookup id = some info → info.contentID = id

namespace Builder

def empty : Builder := ⟨∅,by simp⟩

def get? (b : Builder) (id : ID) : Option Info := b.contents.lookup id

/-- `b[i.ContentID] = i`. -/
def set (b : Builder) (i : Info) : Builder where
  contents := b.contents.insert i.contentID i
  keyed := by
    intro id info found
    by_cases same : id = i.contentID
    · subst same
      rw [AList.lookup_insert] at found
      cases Option.some.inj found
      rfl
    · rw [AList.lookup_insert_ne same] at found
      exact b.keyed id info found

/-- `delete(b, id)`. -/
def erase (b : Builder) (id : ID) : Builder where
  contents := b.contents.erase id
  keyed := by
    intro other info found
    by_cases same : other = id
    · subst same
      simp at found
    · rw [AList.lookup_erase_ne same] at found
      exact b.keyed other info found

def infos (b : Builder) : List Info := b.contents.entries.map Sigma.snd

/-- Adds an entry, or replaces the present one where the new one wins. -/
def add (b : Builder) (i : Info) : Builder :=
  match b.get? i.contentID with
  | none => b.set i
  | some old => if contentInfoGreaterThanStruct i old then b.set i else b

def addAll (b : Builder) (entries : List Info) : Builder := entries.foldl add b

@[simp] theorem get?_empty (id : ID) : empty.get? id = none := AList.lookup_empty id

theorem get?_contentID {b : Builder} {id : ID} {info : Info} (found : b.get? id = some info) :
    info.contentID = id := b.keyed id info found

@[simp] theorem get?_set_self (b : Builder) (i : Info) : (b.set i).get? i.contentID = some i :=
  AList.lookup_insert _

theorem get?_set (b : Builder) (i : Info) (id : ID) :
    (b.set i).get? id = if id = i.contentID then some i else b.get? id := by
  split
  next same => subst same; exact get?_set_self b i
  next other => exact AList.lookup_insert_ne other

theorem get?_erase (b : Builder) (id other : ID) :
    (b.erase id).get? other = if other = id then none else b.get? other := by
  split
  next same => subst same; exact AList.lookup_erase _ _
  next differs => exact AList.lookup_erase_ne differs

theorem mem_infos {b : Builder} {i : Info} : i ∈ b.infos ↔ b.get? i.contentID = some i := by
  unfold infos get?
  constructor
  · intro member
    obtain ⟨⟨id,info⟩,inside,rfl⟩ := List.mem_map.mp member
    have found := AList.mem_lookup_iff.mpr inside
    rw [show info.contentID = id from b.keyed id info found]
    exact found
  · intro found
    exact List.mem_map.mpr ⟨⟨i.contentID,i⟩,AList.mem_lookup_iff.mp found,rfl⟩

theorem infos_map_contentID (b : Builder) : b.infos.map Info.contentID = b.contents.keys := by
  unfold infos AList.keys List.keys
  rw [List.map_map]
  apply List.map_congr_left
  rintro ⟨id,info⟩ member
  exact b.keyed id info (AList.mem_lookup_iff.mpr member)

/-- No two entries of a builder have the same identifier. -/
theorem nodup_contentIDs (b : Builder) : (b.infos.map Info.contentID).Nodup := by
  rw [infos_map_contentID]
  exact b.contents.keys_nodup

/-- What an added entry leaves at its own key. -/
def winner (old : Option Info) (i : Info) : Info :=
  match old with
  | none => i
  | some old => if contentInfoGreaterThanStruct i old then i else old

theorem get?_add (b : Builder) (i : Info) (id : ID) :
    (b.add i).get? id = if id = i.contentID then some (winner (b.get? id) i) else b.get? id := by
  unfold add
  by_cases same : id = i.contentID
  · subst same
    cases present : b.get? i.contentID with
    | none => simp [winner]
    | some old => by_cases wins : contentInfoGreaterThanStruct i old <;> simp [winner,wins,present]
  · cases present : b.get? i.contentID with
    | none => simp [get?_set,same]
    | some old => by_cases wins : contentInfoGreaterThanStruct i old <;> simp [get?_set,same,wins]

theorem get?_addAll_of_notMem (b : Builder) (entries : List Info) (id : ID)
    (absent : id ∉ entries.map Info.contentID) : (b.addAll entries).get? id = b.get? id := by
  induction entries generalizing b with
  | nil => rfl
  | cons i entries ih =>
    simp only [List.map_cons,List.mem_cons,not_or] at absent
    show ((b.add i).addAll entries).get? id = b.get? id
    rw [ih (b.add i) absent.2,get?_add,if_neg absent.1]

/-- Entries with identifiers of their own are added as they are. -/
theorem get?_addAll_of_nodup (b : Builder) {entries : List Info} (distinct : (entries.map Info.contentID).Nodup)
    (fresh : ∀ i ∈ entries, b.get? i.contentID = none) (id : ID) :
    (b.addAll entries).get? id = (entries.find? fun i => i.contentID = id).or (b.get? id) := by
  induction entries generalizing b with
  | nil => rfl
  | cons i entries ih =>
    obtain ⟨absent,distinct⟩ := List.nodup_cons.mp distinct
    have first := fresh i (by simp)
    have rest : ∀ j ∈ entries, (b.add i).get? j.contentID = none := by
      intro j member
      have other : j.contentID ≠ i.contentID := fun same => absent (same ▸ List.mem_map_of_mem member)
      rw [get?_add,if_neg other]
      exact fresh j (by simp [member])
    show ((b.add i).addAll entries).get? id = _
    rw [ih (b.add i) distinct rest,get?_add]
    by_cases own : i.contentID = id
    · subst own
      have none : (entries.find? fun j => j.contentID = i.contentID) = none :=
        List.find?_eq_none.mpr fun j member same => absent ((by simpa using same : j.contentID = i.contentID) ▸
          List.mem_map_of_mem member)
      simp [first,none,winner]
    · simp [own,Ne.symm own]

/-- Adding all entries of another builder resolves every identifier on its own. -/
theorem get?_addAll_infos (b other : Builder) (id : ID) :
    (b.addAll other.infos).get? id =
      match other.get? id with
      | none => b.get? id
      | some i => some (winner (b.get? id) i) := by
  cases found : other.get? id with
  | none =>
    apply get?_addAll_of_notMem
    intro member
    obtain ⟨i,inside,rfl⟩ := List.mem_map.mp member
    rw [mem_infos.mp inside] at found
    contradiction
  | some i =>
    have own := get?_contentID found
    have inside : i ∈ other.infos := mem_infos.mpr (by rw [own]; exact found)
    obtain ⟨before,after,split⟩ := List.append_of_mem inside
    have distinct := other.nodup_contentIDs
    rw [split,List.map_append,List.map_cons,List.nodup_append] at distinct
    have notAfter : id ∉ after.map Info.contentID := by
      rw [← own]
      exact (List.nodup_cons.mp distinct.2.1).1
    have notBefore : id ∉ before.map Info.contentID := by
      intro member
      exact distinct.2.2 id member i.contentID (by simp) own.symm
    have parts : b.addAll other.infos = (((b.addAll before).add i).addAll after) := by
      rw [split]
      simp [addAll,List.foldl_append]
    rw [parts,get?_addAll_of_notMem _ _ _ notAfter,get?_add,if_pos own.symm,
      get?_addAll_of_notMem _ _ _ notBefore]

end Builder

section Winner

theorem contentInfoGreaterThanStruct_irrefl (a : Info) : contentInfoGreaterThanStruct a a = false :=
  contentInfoGreaterThanStruct_eq_false.mpr (le_refl _)

theorem winner_some (old i : Info) : Builder.winner (some old) i = i ∨ Builder.winner (some old) i = old := by
  unfold Builder.winner
  dsimp only
  split
  · exact Or.inl rfl
  · exact Or.inr rfl

/-- The winner is one of the two. -/
theorem winner_cases (old : Option Info) (i : Info) :
    Builder.winner old i = i ∨ old = some (Builder.winner old i) := by
  cases old with
  | none => exact Or.inl rfl
  | some o => exact (winner_some o i).imp id fun kept => congrArg some kept.symm

theorem rank_le_winner (old : Option Info) (i x : Info) (one : x = i ∨ old = some x) :
    x.rank ≤ (Builder.winner old i).rank := by
  cases old with
  | none =>
    rcases one with rfl | none
    · exact le_refl _
    · contradiction
  | some o =>
    unfold Builder.winner
    dsimp only
    split
    next wins =>
      rcases one with rfl | same
      · exact le_refl _
      · cases Option.some.inj same
        exact le_of_lt (contentInfoGreaterThanStruct_iff.mp wins)
    next loses =>
      rcases one with rfl | same
      · exact contentInfoGreaterThanStruct_eq_false.mp (by simpa using loses)
      · cases Option.some.inj same
        exact le_refl _

theorem winner_not_beaten (old : Option Info) (i x : Info) (one : x = i ∨ old = some x) :
    contentInfoGreaterThanStruct x (Builder.winner old i) = false :=
  contentInfoGreaterThanStruct_eq_false.mpr (rank_le_winner old i x one)

/-- A strictly later entry wins. -/
theorem winner_of_later {old : Option Info} {i : Info}
    (later : ∀ o, old = some o → o.timestampSeconds < i.timestampSeconds) : Builder.winner old i = i := by
  cases old with
  | none => rfl
  | some o =>
    have less := later o rfl
    have differs : i.timestampSeconds ≠ o.timestampSeconds := by omega
    simp [Builder.winner,contentInfoGreaterThanStruct,differs,less]

variable {l l' : List Info} {old : Option Info} {w x : Info}

/-- What entries come down to, one after the other. -/
def best (l : List Info) (old : Option Info) : Option Info := l.foldl (fun old i => some (Builder.winner old i)) old

theorem best_eq_none : best l old = none ↔ l = [] ∧ old = none := by
  induction l generalizing old with
  | nil => simp [best]
  | cons i l ih =>
    show best l (some (Builder.winner old i)) = none ↔ _
    simp [ih]

theorem best_mem (found : best l old = some w) : w ∈ l ∨ old = some w := by
  induction l generalizing old with
  | nil => exact Or.inr found
  | cons i l ih =>
    rcases ih found with later | same
    · exact Or.inl (List.mem_cons_of_mem i later)
    · rcases winner_cases old i with new | kept
      · exact Or.inl (by simp [← Option.some.inj same,new])
      · exact Or.inr (kept.trans same)

theorem rank_le_best (found : best l old = some w) (one : x ∈ l ∨ old = some x) : x.rank ≤ w.rank := by
  induction l generalizing old x with
  | nil =>
    rcases one with none | same
    · simp at none
    · exact Option.some.inj (same.symm.trans found) ▸ le_refl _
  | cons i l ih =>
    have step {y : Info} (either : y = i ∨ old = some y) : y.rank ≤ w.rank :=
      le_trans (rank_le_winner old i y either) (ih found (Or.inr rfl))
    rcases one with member | same
    · rcases List.mem_cons.mp member with rfl | later
      · exact step (Or.inl rfl)
      · exact ih found (Or.inl later)
    · exact step (Or.inr same)

/-- The order of the entries does not matter to the rank of what they come down to. -/
theorem best_ruled_congr (same : ∀ i, i ∈ l ↔ i ∈ l') :
    (best l none).map Info.ruled = (best l' none).map Info.ruled := by
  cases found : best l none with
  | none =>
    have empty : l' = [] := List.eq_nil_iff_forall_not_mem.mpr fun i member => by
      simp [(best_eq_none.mp found).1] at same
      exact same i member
    rw [empty]
    rfl
  | some w =>
    have inside : w ∈ l := by simpa using best_mem found
    cases other : best l' none with
    | none =>
      have empty := (best_eq_none.mp other).1
      simp [empty] at same
      exact absurd inside (same w)
    | some w' =>
      have inside' : w' ∈ l' := by simpa using best_mem other
      exact congrArg some (Info.rank_eq_iff.mp (le_antisymm (rank_le_best other (Or.inl ((same w).mp inside)))
        (rank_le_best found (Or.inl ((same w').mpr inside')))))

/-- Entries that are left out because others are at least as high do not matter, as long as
no two entries tie. -/
theorem best_congr (inside : ∀ i ∈ l', i ∈ l) (covered : ∀ i ∈ l, ∃ j ∈ l', i.rank ≤ j.rank)
    (untied : ∀ i ∈ l, ∀ j ∈ l, i.rank = j.rank → i = j) : best l' none = best l none := by
  cases found : best l none with
  | none =>
    have empty : l' = [] := List.eq_nil_iff_forall_not_mem.mpr fun i member => by
      simpa [(best_eq_none.mp found).1] using inside i member
    rw [empty]
    rfl
  | some w =>
    have there : w ∈ l := by simpa using best_mem found
    cases other : best l' none with
    | none =>
      obtain ⟨j,member,_⟩ := covered w there
      simp [(best_eq_none.mp other).1] at member
    | some w' =>
      have there' : w' ∈ l' := by simpa using best_mem other
      obtain ⟨j,member,le⟩ := covered w there
      have above := le_trans le (rank_le_best other (Or.inl member))
      have below := rank_le_best found (Or.inl (inside w' there'))
      rw [untied w' (inside w' there') w there (le_antisymm below above)]

/-- A builder holds what the entries added to it come down to, each identifier on its own. -/
theorem Builder.get?_addAll (b : Builder) (l : List Info) (id : ID) :
    (b.addAll l).get? id = best (l.filter fun i => i.contentID = id) (b.get? id) := by
  induction l generalizing b with
  | nil => rfl
  | cons i l ih =>
    show ((b.add i).addAll l).get? id = _
    rw [ih,get?_add]
    by_cases own : i.contentID = id
    · simp [own,best]
    · simp [own,Ne.symm own]

end Winner

section Sorting

def keyLess (i j : Info) : Prop := contentIDToBytes i.contentID < contentIDToBytes j.contentID

theorem keyLess_trans {i j k : Info} (first : keyLess i j) (second : keyLess j k) : keyLess i k :=
  lt_trans first second

/-- In a list in key order, equal keys are equal positions. -/
theorem eq_of_contentID_eq {l : List Info} (sorted : l.Pairwise keyLess) {i j : Info}
    (hi : i ∈ l) (hj : j ∈ l) (same : i.contentID = j.contentID) : i = j := by
  by_contra different
  obtain ⟨p,pIn,rfl⟩ := List.mem_iff_getElem.mp hi
  obtain ⟨q,qIn,rfl⟩ := List.mem_iff_getElem.mp hj
  rcases Nat.lt_trichotomy p q with less | equal | more
  · have := List.pairwise_iff_getElem.mp sorted p q pIn qIn less
    rw [keyLess,same] at this
    exact lt_irrefl _ this
  · subst equal
    exact different rfl
  · have := List.pairwise_iff_getElem.mp sorted q p qIn pIn more
    rw [keyLess,same] at this
    exact lt_irrefl _ this

/-- A lookup in a list in key order. -/
theorem find?_contentID {l : List Info} (sorted : l.Pairwise keyLess) {id : ID} {i : Info} :
    (l.find? fun i => i.contentID = id) = some i ↔ i ∈ l ∧ i.contentID = id := by
  constructor
  · intro found
    exact ⟨List.mem_of_find?_eq_some found,by simpa using List.find?_some found⟩
  · rintro ⟨member,own⟩
    cases found : l.find? fun i => i.contentID = id with
    | none => simpa [own] using List.find?_eq_none.mp found i member
    | some j =>
      have same : j.contentID = id := by simpa using List.find?_some found
      rw [eq_of_contentID_eq sorted (List.mem_of_find?_eq_some found) member (same.trans own.symm)]

/-- The entries of a builder in key order are looked up as the builder is. -/
theorem Builder.get?_eq_find? (b : Builder) {l : List Info} (sorted : l.Pairwise keyLess)
    (same : ∀ i, i ∈ l ↔ i ∈ b.infos) (id : ID) : b.get? id = l.find? fun i => i.contentID = id := by
  apply Option.ext
  intro i
  rw [find?_contentID sorted,same,Builder.mem_infos]
  constructor
  · intro found
    have own := Builder.get?_contentID found
    exact ⟨own ▸ found,own⟩
  · rintro ⟨found,own⟩
    exact own ▸ found

/-- '0'..'9' and 'a'..'z' in base 36, upper case like lower case, anything else
zero. -/
def base36Value (c : UInt8) : Nat :=
  if 48 ≤ c ∧ c ≤ 57 then c.toNat - 48
  else if 97 ≤ c ∧ c ≤ 122 then c.toNat - 87
  else if 65 ≤ c ∧ c ≤ 90 then c.toNat - 55
  else 0

/-- The bucket of an identifier: its prefix, then the first half of its first
byte. -/
def bucket (cid : ID) : Nat := base36Value cid.idPrefix * 16 + (cid.data.headD 0).toNat / 16

/-- The buckets are sorted one by one and put together in their order. -/
def Builder.sortedContents (b : Builder) : List Info :=
  (List.range (36 * 16)).flatMap fun buck =>
    (b.infos.filter fun i => bucket i.contentID = buck).mergeSort
      fun i j => !j.contentID.less i.contentID

theorem base36Value_le (c : UInt8) : base36Value c ≤ 35 := by
  unfold base36Value
  simp only [UInt8.le_iff_toNat_le]
  split
  · have : c.toNat ≤ 57 := by simpa using (by assumption : _ ∧ _).2
    omega
  · split
    · have : c.toNat ≤ 122 := by simpa using (by assumption : _ ∧ _).2
      omega
    · split
      · have : c.toNat ≤ 90 := by simpa using (by assumption : _ ∧ _).2
        omega
      · omega

theorem bucket_lt (cid : ID) : bucket cid < 36 * 16 := by
  have letter := base36Value_le cid.idPrefix
  have byte := (cid.data.headD 0).toNat_lt
  unfold bucket
  omega

theorem base36Value_valid {i : ID} (valid : i.Valid) :
    base36Value i.idPrefix = if i.idPrefix = 0 then 0 else i.idPrefix.toNat - 87 := by
  rcases valid.1 with none | ⟨lower,upper⟩
  · simp [none,base36Value]
  · have lo : 103 ≤ i.idPrefix.toNat := by simpa using UInt8.le_iff_toNat_le.mp lower
    have digits : ¬ i.idPrefix ≤ 57 := by
      rw [UInt8.le_iff_toNat_le]
      simpa using (by omega : ¬ i.idPrefix.toNat ≤ 57)
    have some : i.idPrefix ≠ 0 := by
      intro zero
      rw [zero] at lo
      simp at lo
    have letters : 97 ≤ i.idPrefix := UInt8.le_iff_toNat_le.mpr (by simpa using (by omega : 97 ≤ i.idPrefix.toNat))
    simp [base36Value,digits,letters,upper,some]

/-- The buckets follow the key order. -/
theorem key_lt_of_bucket_lt {i j : ID} (vi : i.Valid) (vj : j.Valid) (less : bucket i < bucket j) :
    contentIDToBytes i < contentIDToBytes j := by
  have bi := (i.data.headD 0).toNat_lt
  have bj := (j.data.headD 0).toNat_lt
  unfold bucket at less
  rw [base36Value_valid vi,base36Value_valid vj] at less
  unfold contentIDToBytes
  rw [List.cons_lt_cons_iff]
  by_cases same : i.idPrefix = j.idPrefix
  · refine Or.inr ⟨same,?_⟩
    rw [same] at less
    have smaller : (i.data.headD 0).toNat < (j.data.headD 0).toNat := by omega
    match hi : i.data, hj : j.data with
    | [], _ => have := vi.2.1; simp [hi] at this
    | _ :: _, [] => have := vj.2.1; simp [hj] at this
    | x :: _, y :: _ =>
      simp only [hi,hj,List.headD_cons] at smaller
      exact List.cons_lt_cons_iff.mpr (Or.inl (UInt8.lt_iff_toNat_lt.mpr smaller))
  · have differs : i.idPrefix.toNat ≠ j.idPrefix.toNat := fun equal => same (UInt8.toNat_inj.mp equal)
    refine Or.inl (UInt8.lt_iff_toNat_lt.mpr ?_)
    rcases vi.1 with zero | ⟨lower,_⟩
    · have : i.idPrefix.toNat = 0 := by rw [zero]; rfl
      omega
    · have lo : 103 ≤ i.idPrefix.toNat := by simpa using UInt8.le_iff_toNat_le.mp lower
      have some : i.idPrefix ≠ 0 := by
        intro zero
        rw [zero] at lo
        simp at lo
      rw [if_neg some] at less
      split at less
      · omega
      · omega

/-- Sorting loses and invents nothing. -/
theorem mem_sortedContents {b : Builder} {i : Info} : i ∈ b.sortedContents ↔ i ∈ b.infos := by
  simp only [Builder.sortedContents,List.mem_flatMap,List.mem_range,List.mem_mergeSort,
    List.mem_filter,decide_eq_true_eq]
  constructor
  · rintro ⟨_,_,member,_⟩
    exact member
  · intro member
    exact ⟨bucket i.contentID,bucket_lt _,member,rfl⟩

/-- The entries come out in strictly increasing key order. -/
theorem pairwise_sortedContents {b : Builder} (valid : ∀ i ∈ b.infos, i.contentID.Valid) :
    b.sortedContents.Pairwise fun i j => contentIDToBytes i.contentID < contentIDToBytes j.contentID := by
  unfold Builder.sortedContents
  rw [List.pairwise_flatMap]
  refine ⟨?_,?_⟩
  · intro buck _
    have notGreater (i j : Info) : (!j.contentID.less i.contentID) = true ↔
        contentIDToBytes i.contentID ≤ contentIDToBytes j.contentID := by
      rw [Bool.not_eq_true',← Bool.not_eq_true,ID.less_iff,not_lt]
    have ordered : ((b.infos.filter fun i => bucket i.contentID = buck).mergeSort
        fun i j => !j.contentID.less i.contentID).Pairwise fun i j => (!j.contentID.less i.contentID) = true :=
      List.pairwise_mergeSort (fun a b c ab bc => (notGreater a c).mpr (le_trans ((notGreater a b).mp ab) ((notGreater b c).mp bc)))
        (fun a b => by
          rw [Bool.or_eq_true,notGreater,notGreater]
          exact le_total _ _) _
    have distinct : ((b.infos.filter fun i => bucket i.contentID = buck).mergeSort
        fun i j => !j.contentID.less i.contentID).Pairwise fun i j => i.contentID ≠ j.contentID := by
      rw [(List.mergeSort_perm _ _).pairwise_iff (fun different => different.symm)]
      exact List.Pairwise.filter _ (List.pairwise_map.mp b.nodup_contentIDs)
    refine (ordered.and distinct).imp ?_
    rintro i j ⟨le,different⟩
    refine lt_of_le_of_ne ((notGreater i j).mp le) ?_
    exact fun equal => different (contentIDToBytes_injective equal)
  · refine List.pairwise_lt_range.imp ?_
    intro low high less i hi j hj
    simp only [List.mem_mergeSort,List.mem_filter,decide_eq_true_eq] at hi hj
    exact key_lt_of_bucket_lt (valid i hi.1) (valid j hj.1) (by omega)

/-- Sorting rearranges the entries. -/
theorem sortedContents_perm {b : Builder} (valid : ∀ i ∈ b.infos, i.contentID.Valid) :
    b.sortedContents.Perm b.infos := by
  refine (List.perm_ext_iff_of_nodup ?_ (List.Nodup.of_map _ b.nodup_contentIDs)).mpr fun i => mem_sortedContents
  refine (pairwise_sortedContents valid).imp ?_
  rintro i _ less rfl
  exact lt_irrefl _ less

theorem sortedContents_single {b : Builder} {i : Info} (alone : b.infos = [i]) (valid : i.contentID.Valid) :
    b.sortedContents = [i] := by
  have perm := sortedContents_perm (b := b) (by simpa [alone] using valid)
  rw [alone] at perm
  exact List.perm_singleton.mp perm

attribute [irreducible] Builder.sortedContents

end Sorting

end Vbe.Index
