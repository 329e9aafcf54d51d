import Vbe.Index.Open

/-! Readers on arbitrary bytes. Everything that is read is checked against the end of the
data, but the key of an entry is copied into an identifier without a look at its size. -/
namespace Vbe.Index
open Vbe.Library.Bytes Vbe.Library.Search
open IndexV2 (keyToContentID)

/-- `maxContentIDSize`. -/
def maxContentIDSize : Nat := maxHashSize + 1

theorem keyToContentID_panics {key : Bytes} : keyToContentID key = .error .panicked ↔ maxContentIDSize < key.length := by
  unfold keyToContentID bytesToContentID maxContentIDSize
  cases key with
  | nil => simp
  | cons letter data =>
    by_cases fits : data.length ≤ maxHashSize
    · simp only [if_pos fits,List.length_cons]
      exact iff_of_false (by simp) (by omega)
    · simp only [if_neg fits,List.length_cons]
      exact iff_of_true trivial (by omega)

theorem keyToContentID_error {key : Bytes} {e : ReadError} (failed : keyToContentID key = .error e) : e = .panicked := by
  unfold keyToContentID at failed
  split at failed
  next => exact (Except.error.inj failed).symm
  next => contradiction

section Searching
variable {ε : Type} {test : Nat → Except ε Bool}

/-- A search that fails has failed at some position. -/
theorem searchFrom_error {fuel i j : Nat} {e : ε} (failed : searchFrom test fuel i j = .error e) :
    ∃ p < j, test p = .error e := by
  induction fuel generalizing i j with
  | zero => contradiction
  | succ fuel ih =>
    unfold searchFrom at failed
    split at failed
    next inside =>
      split at failed
      next e' wrong =>
        cases Except.error.inj failed
        exact ⟨(i + j) / 2,by omega,wrong⟩
      next => exact ih failed
      next =>
        obtain ⟨p,below,wrong⟩ := ih failed
        exact ⟨p,by omega,wrong⟩
    next => contradiction

/-- The first position looked at is the one in the middle. -/
theorem search_middle {n : Nat} (some : 0 < n) {e : ε} (failed : test (n / 2) = .error e) : search n test = .error e := by
  obtain ⟨fuel,rfl⟩ := Nat.exists_eq_succ_of_ne_zero (Nat.ne_of_gt some)
  unfold search searchFrom
  rw [if_pos some,Nat.zero_add,failed]

end Searching

section Tables
variable {b : Table}

/-- The key that a search looks at first is too long for an identifier. -/
structure Table.LongKeys (b : Table) : Prop where
  long : maxContentIDSize < b.keySize
  some : 0 < b.entryCount
  readable : slice b.data (b.entryOffset (b.entryCount / 2)) b.keySize ≠ none

theorem Table.findEntryPosition_panics (start : IDPrefix) :
    b.findEntryPosition start = .error .panicked ↔ b.LongKeys := by
  constructor
  · intro failed
    have long : maxContentIDSize < b.keySize := by
      obtain ⟨p,_,wrong⟩ := searchFrom_error failed
      unfold Table.searchKey at wrong
      cases read : slice b.data (b.entryOffset p) b.keySize with
      | none =>
        rw [read] at wrong
        have other : (.error .invalidSlice : Except ReadError Bool) = .error .panicked := wrong
        contradiction
      | some key =>
        rw [read] at wrong
        have passed : (keyToContentID key >>= fun contentID => .ok (decide (contentID.comparePrefix start ≠ .lt)) :
          Except ReadError Bool) = .error .panicked := wrong
        cases made : keyToContentID key with
        | error e =>
          rw [keyToContentID_error made,keyToContentID_panics,slice_length read] at made
          exact made
        | ok contentID =>
          rw [made] at passed
          have fine : (.ok (decide (contentID.comparePrefix start ≠ .lt)) : Except ReadError Bool) = .error .panicked := passed
          contradiction
    have some : 0 < b.entryCount := by
      rcases Nat.eq_zero_or_pos b.entryCount with none | some
      · rw [Table.findEntryPosition,none] at failed
        contradiction
      · exact some
    refine ⟨long,some,fun unreadable => ?_⟩
    have invalid : b.findEntryPosition start = .error .invalidSlice := by
      refine search_middle some ?_
      rw [Table.searchKey,unreadable]
      rfl
    rw [invalid] at failed
    contradiction
  · intro longKeys
    refine search_middle longKeys.some ?_
    cases read : slice b.data (b.entryOffset (b.entryCount / 2)) b.keySize with
    | none => exact absurd read longKeys.readable
    | some key =>
      have panicked := keyToContentID_panics.mpr (lt_of_lt_of_eq longKeys.long (slice_length read).symm)
      rw [Table.searchKey,read]
      show (keyToContentID key >>= _) = _
      rw [panicked]
      rfl

/-- The keys of an index that is iterated fit, or its search for the start would have failed. -/
theorem Table.fits_of_found {start : IDPrefix} {startPos : Nat} (found : b.findEntryPosition start = .ok startPos)
    (some : startPos < b.entryCount) : b.keySize ≤ maxContentIDSize := by
  by_contra long
  have unreadable : ¬b.LongKeys := fun longKeys => by
    rw [(findEntryPosition_panics start).mpr longKeys] at found
    contradiction
  have invalid : b.findEntryPosition start = .error .invalidSlice := by
    refine search_middle (by omega) ?_
    cases read : slice b.data (b.entryOffset (b.entryCount / 2)) b.keySize with
    | none =>
      rw [Table.searchKey,read]
      rfl
    | some key => exact absurd ⟨not_le.mp long,by omega,by simp [read]⟩ unreadable
  rw [invalid] at found
  contradiction

theorem take_fits {key : Bytes} {n : Nat} (fits : n ≤ maxContentIDSize) : keyToContentID (key.take n) ≠ .error .panicked := by
  rw [Ne,keyToContentID_panics,List.length_take]
  omega

theorem Table.iterateFrom_calm (decodes : ∀ id data, b.decode id data ≠ .error .panicked)
    (fits : b.keySize ≤ maxContentIDSize) (r : IDRange) (count i : Nat) : (b.iterateFrom r count i).2 ≠ some .panicked := by
  induction count generalizing i with
  | zero => simp [Table.iterateFrom]
  | succ count ih =>
    unfold Table.iterateFrom
    split
    next => simp
    next entry _ =>
      split
      next e failed => exact fun same => take_fits fits (Option.some.inj same ▸ failed)
      next id _ =>
        split
        next => simp
        next =>
          split
          next e failed => exact fun same => decodes id _ (Option.some.inj same ▸ failed)
          next => exact ih (i + 1)

end Tables

section Versions

theorem IndexV1.entryToInfoStruct_calm (b : IndexV1) (names : NameMap) (id : ID) (data : Bytes) :
    (b.entryToInfoStruct names id data).1 ≠ .error .panicked := by
  unfold IndexV1.entryToInfoStruct
  split <;> simp

theorem IndexV2.entryToInfoStruct_calm (b : IndexV2) (id : ID) (data : Bytes) :
    b.entryToInfoStruct id data ≠ .error .panicked := by
  unfold IndexV2.entryToInfoStruct
  split <;> simp

theorem IndexV1.iterateFrom_calm {b : IndexV1} (fits : b.hdr.keySize ≤ maxContentIDSize) (r : IDRange) (count i : Nat)
    (names : NameMap) : (b.iterateFrom r count i names).1.2 ≠ some .panicked := by
  induction count generalizing i names with
  | zero => simp [IndexV1.iterateFrom]
  | succ count ih =>
    unfold IndexV1.iterateFrom
    split
    next => simp
    next entry _ =>
      split
      next e failed => exact fun same => take_fits fits (Option.some.inj same ▸ failed)
      next id _ =>
        split
        next => simp
        next =>
          split
          next e names' failed =>
            intro same
            refine b.entryToInfoStruct_calm names id (entry.drop b.hdr.keySize) ?_
            rw [failed]
            exact congrArg Except.error (Option.some.inj same)
          next => exact ih (i + 1) _

/-- A lookup copies no key into an identifier. -/
theorem Table.findEntry_calm (b : Table) (id : ID) : b.findEntry id ≠ .error .panicked := by
  unfold Table.findEntry
  dsimp only
  split
  next => simp
  next =>
    split
    next => simp
    next =>
      split
      next e failed =>
        obtain ⟨p,_,wrong⟩ := searchFrom_error failed
        unfold Table.searchKey at wrong
        split at wrong
        next =>
          have invalid : (.error .invalidSlice : Except ReadError Bool) = .error e := wrong
          cases Except.error.inj invalid
          simp
        next => contradiction
      next =>
        split
        next => simp
        next =>
          split
          next => simp
          next => split <;> simp

namespace PackIndex
variable (ndx : PackIndex) (names : NameMap)

theorem GetInfo_calm (id : ID) : (ndx.opened names).GetInfo id ≠ .error .panicked := by
  have looked := ndx.table.findEntry_calm id
  cases ndx with
  | v1 ndx =>
    simp only [opened,IndexV1.GetInfo,IndexV1.findEntry]
    split
    next e failed => exact fun same => looked (Except.error.inj same ▸ failed)
    next => simp
    next e _ =>
      split
      next => simp
      next =>
        have decoded := ndx.entryToInfoStruct_calm names id e
        cases made : (ndx.entryToInfoStruct names id e).1 with
        | error e' =>
          rw [made] at decoded
          simpa [Except.map] using decoded
        | ok i => simp [Except.map]
  | v2 ndx =>
    simp only [opened,IndexV2.GetInfo_table,Table.GetInfo]
    split
    next e failed => exact fun same => looked (Except.error.inj same ▸ failed)
    next => simp
    next e _ =>
      have decoded := ndx.entryToInfoStruct_calm id e
      have decode : ndx.table.decode id e = ndx.entryToInfoStruct id e := rfl
      rw [decode]
      cases made : ndx.entryToInfoStruct id e with
      | error e' =>
        rw [made] at decoded
        simpa [Except.map] using decoded
      | ok i => simp [Except.map]

theorem Iterate_panics (r : IDRange) : ((ndx.opened names).Iterate r).2 = some .panicked ↔ ndx.table.LongKeys := by
  cases ndx with
  | v1 ndx =>
    simp only [opened,IndexV1.Iterate,IndexV1.findEntryPosition,table]
    rw [← Table.findEntryPosition_panics r.startID]
    cases found : ndx.table.findEntryPosition r.startID with
    | error e => simp
    | ok startPos =>
      refine iff_of_false ?_ (by simp)
      by_cases some : startPos < ndx.table.entryCount
      · exact IndexV1.iterateFrom_calm (Table.fits_of_found found some) r _ startPos names
      · have none : ndx.hdr.entryCount - startPos = 0 := Nat.sub_eq_zero_of_le (not_lt.mp some)
        simp [none,IndexV1.iterateFrom]
  | v2 ndx =>
    simp only [opened,IndexV2.Iterate_table,Table.Iterate,table]
    rw [← Table.findEntryPosition_panics r.startID]
    cases found : ndx.table.findEntryPosition r.startID with
    | error e => simp
    | ok startPos =>
      refine iff_of_false ?_ (by simp)
      by_cases some : startPos < ndx.table.entryCount
      · exact Table.iterateFrom_calm ndx.entryToInfoStruct_calm (Table.fits_of_found found some) r _ startPos
      · have none : ndx.table.entryCount - startPos = 0 := Nat.sub_eq_zero_of_le (not_lt.mp some)
        simp [none,Table.iterateFrom]

end PackIndex

/-- The readers of an opened index never panic, unless its keys are longer than those of
identifiers and one that a search looks at first is inside the data. -/
theorem Open_readers_panic (v1PerContentOverhead : Nat) (d : Bytes) :
    (∀ ndx, Open v1PerContentOverhead d = .ok ndx → ∀ names, ndx.Remembers names →
      (∀ id, (ndx.opened names).GetInfo id ≠ .error .panicked) ∧
        ∀ r, ((ndx.opened names).Iterate r).2 ≠ some .panicked) ↔
    ∀ ndx, Open v1PerContentOverhead d = .ok ndx → ndx.table.keySize ≤ maxContentIDSize ∨ ndx.table.entryCount = 0 ∨
      slice d (ndx.table.entryOffset (ndx.table.entryCount / 2)) ndx.table.keySize = none := by
  have fits (ndx : PackIndex) (opened : Open v1PerContentOverhead d = .ok ndx) : ¬ndx.table.LongKeys ↔
      ndx.table.keySize ≤ maxContentIDSize ∨ ndx.table.entryCount = 0 ∨
        slice d (ndx.table.entryOffset (ndx.table.entryCount / 2)) ndx.table.keySize = none := by
    rw [← Open_data opened]
    constructor
    · intro calm
      by_contra all
      simp only [not_or,not_le] at all
      exact calm ⟨all.1,Nat.pos_of_ne_zero all.2.1,all.2.2⟩
    · rintro (short | none | unreadable) longKeys
      · exact absurd longKeys.long (not_lt.mpr short)
      · exact absurd longKeys.some (by omega)
      · exact longKeys.readable unreadable
  constructor
  · intro calm ndx opened
    refine (fits ndx opened).mp fun longKeys => ?_
    exact (calm ndx opened [] ndx.remembers_nil).2 AllIDs ((ndx.Iterate_panics [] AllIDs).mpr longKeys)
  · intro condition ndx opened names _
    refine ⟨ndx.GetInfo_calm names,fun r panicked => ?_⟩
    exact (fits ndx opened).mpr (condition ndx opened) ((ndx.Iterate_panics names r).mp panicked)

/-- A file with one entry whose key has 34 bytes. -/
def longKeyIndex : Bytes := [1,34,0,0,0,0,0,1] ++ List.replicate 34 0

/-- Iterating over the file panics. -/
theorem Iterate_longKeyIndex_panics : ∃ ndx, Open 0 longKeyIndex = .ok ndx ∧
    ((ndx.opened []).Iterate AllIDs).2 = some .panicked :=
  ⟨.v1 ⟨⟨1,34,0,1⟩,longKeyIndex,0⟩,rfl,by decide⟩

end Versions

end Vbe.Index
