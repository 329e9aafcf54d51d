import Vbe.Index.Version1RoundTrip
import Vbe.Index.Shards

/-! Index files in use: whatever a file of either version delivers keeps to ranges that
both versions can write, and what a builder is written out as opens as an index that
answers from the entries of the builder. -/
namespace Vbe.Index
open Vbe.Library.Bytes Vbe.Library.Results

section Ranges

/-- The ranges that the fields of a decoded entry keep to. -/
structure Info.InRange (i : Info) : Prop where
  early : 0 ≤ i.timestampSeconds
  late : i.timestampSeconds < 2 ^ 48
  offset : i.packOffset.toNat < 2 ^ 31
  name : i.packBlobID.length ≤ 255

theorem numberAt_lt (data : Bytes) (off width : Nat) : numberAt data off width < 256 ^ width := by
  refine lt_of_lt_of_le (ofBigEndian_lt _) (Nat.pow_le_pow_right (by omega) ?_)
  exact List.length_take_le _ _

theorem maskedOffset_lt (n : Nat) : (UInt32.ofNat (n &&& (2 ^ 31 - 1))).toNat < 2 ^ 31 := by
  have masked : n &&& (2 ^ 31 - 1) = n % 2 ^ 31 := Nat.and_two_pow_sub_one_eq_mod n 31
  rw [masked,UInt32.toNat_ofNat']
  omega

/-- Every remembered pack name is short. -/
def ShortNames (names : NameMap) : Prop := ∀ known ∈ names, known.2.length ≤ 255

theorem IndexV1.packBlobIDForOffset_short (b : IndexV1) {names : NameMap} (short : ShortNames names) (nameOffset : Nat)
    {nameLength : Nat} (bound : nameLength ≤ 255) :
    (b.packBlobIDForOffset names nameOffset nameLength).1.length ≤ 255 ∧
      ShortNames (b.packBlobIDForOffset names nameOffset nameLength).2 := by
  unfold IndexV1.packBlobIDForOffset
  split
  next packBlobID found =>
    obtain ⟨before,after,shape,_⟩ := List.lookup_eq_some_iff.mp found
    exact ⟨short (nameOffset,packBlobID) (by simp [shape]),short⟩
  next =>
    split
    next =>
      have invalid : invalidBlobID.length ≤ 255 := by decide
      exact ⟨invalid,short⟩
    next nameBuf read =>
      have length : nameBuf.length = nameLength := slice_length read
      have fits : nameBuf.length ≤ 255 := by omega
      refine ⟨fits,fun known member => ?_⟩
      rcases List.mem_cons.mp member with rfl | old
      · exact fits
      · exact short known old

theorem IndexV1.entryToInfoStruct_inRange (b : IndexV1) {names : NameMap} (short : ShortNames names) (id : ID)
    (data : Bytes) : (∀ i, (b.entryToInfoStruct names id data).1 = .ok i → i.InRange) ∧
      ShortNames (b.entryToInfoStruct names id data).2 := by
  unfold IndexV1.entryToInfoStruct
  split
  next => exact ⟨by simp,short⟩
  next =>
    have length := numberAt_lt data 7 1
    have time := numberAt_lt data 0 6
    have bounded : numberAt data 7 1 ≤ 255 := by omega
    obtain ⟨name,kept⟩ := b.packBlobIDForOffset_short short (numberAt data 8 4) bounded
    refine ⟨fun i decoded => ?_,kept⟩
    cases Except.ok.inj decoded
    exact ⟨by simp only; omega,by simp only; omega,maskedOffset_lt _,name⟩

theorem IndexV1.iterateFrom_inRange (b : IndexV1) (r : IDRange) (count i : Nat) {names : NameMap} (short : ShortNames names) :
    ∀ info ∈ (b.iterateFrom r count i names).1.1, info.InRange := by
  induction count generalizing i names with
  | zero => simp [IndexV1.iterateFrom]
  | succ count ih =>
    unfold IndexV1.iterateFrom
    split
    next => simp
    next entry _ =>
      split
      next => simp
      next id _ =>
        split
        next => simp
        next =>
          obtain ⟨ranged,kept⟩ := b.entryToInfoStruct_inRange short id (entry.drop b.hdr.keySize)
          split
          next => simp
          next info names' decoded =>
            rw [decoded] at ranged kept
            intro other member
            rcases List.mem_cons.mp member with rfl | later
            · exact ranged _ rfl
            · exact ih (i + 1) kept other later

/-- What an opened index of version 2 has read so far keeps to the ranges. -/
structure IndexV2.Ranged (b : IndexV2) : Prop where
  names : ∀ name ∈ b.packBlobIDs, name.length ≤ 255
  base : b.hdr.baseTimestamp < 2 ^ 32

theorem readPackID_short {data : Bytes} {packsOffset i : Nat} {name : BlobID}
    (read : readPackID data packsOffset i = .ok name) : name.length ≤ 255 := by
  unfold readPackID at read
  split at read
  next => contradiction
  next buf _ =>
    split at read
    next => contradiction
    next found _ there =>
      cases Except.ok.inj read
      have length := slice_length there
      have bound := numberAt_lt buf 0 1
      omega

theorem openV2PackIndex_ranged {data : Bytes} {ndx : IndexV2} (opened : openV2PackIndex data = .ok ndx) : ndx.Ranged := by
  obtain ⟨header,_,_,hdr,_,packs⟩ := openV2PackIndex_inv opened
  refine ⟨fun name member => ?_,hdr ▸ numberAt_lt header 13 4⟩
  obtain ⟨i,_,read⟩ := mapM_mem packs name member
  exact readPackID_short read

theorem IndexV2.Ranged.entryToInfoStruct {b : IndexV2} (ranged : b.Ranged) {id : ID} {data : Bytes} {i : Info}
    (decoded : b.entryToInfoStruct id data = .ok i) : i.InRange := by
  unfold IndexV2.entryToInfoStruct at decoded
  split at decoded
  next => contradiction
  next =>
    cases Except.ok.inj decoded
    have time := numberAt_lt data 0 4
    have base := ranged.base
    refine ⟨by simp only; omega,by simp only; omega,maskedOffset_lt _,?_⟩
    unfold IndexV2.getPackBlobIDByIndex
    dsimp only
    split
    next =>
      have invalid : invalidBlobID.length ≤ 255 := by decide
      exact invalid
    next =>
      rw [List.getD_eq_getElem?_getD]
      cases found : b.packBlobIDs[packIDIndex data]? with
      | none => simp
      | some name => exact ranged.names name (List.mem_of_getElem? found)

theorem Table.iterateFrom_decodes (b : Table) (r : IDRange) (count i : Nat) :
    ∀ info ∈ (b.iterateFrom r count i).1, ∃ id data, b.decode id data = .ok info := by
  induction count generalizing i with
  | zero => simp [Table.iterateFrom]
  | succ count ih =>
    unfold Table.iterateFrom
    split
    next => simp
    next entry _ =>
      split
      next => simp
      next id _ =>
        split
        next => simp
        next =>
          split
          next => simp
          next info decoded =>
            intro other member
            rcases List.mem_cons.mp member with rfl | later
            · exact ⟨id,_,decoded⟩
            · exact ih (i + 1) other later

/-- What an opened index delivers keeps to the ranges. -/
theorem Open_inRange {v1PerContentOverhead : Nat} {data : Bytes} {ndx : PackIndex}
    (opened : Open v1PerContentOverhead data = .ok ndx) (r : IDRange) :
    ∀ i ∈ ((ndx.opened []).Iterate r).1, i.InRange := by
  unfold Open at opened
  split at opened
  next => contradiction
  next h _ =>
    split at opened
    next =>
      cases Except.ok.inj opened
      intro i member
      simp only [PackIndex.opened,IndexV1.Iterate] at member
      split at member
      next => simp at member
      next startPos _ => exact IndexV1.iterateFrom_inRange _ r _ startPos (by simp [ShortNames]) i member
    next =>
      split at opened
      next =>
        split at opened
        next => contradiction
        next v2 read =>
          cases Except.ok.inj opened
          intro i member
          simp only [PackIndex.opened,IndexV2.Iterate_table,Table.Iterate] at member
          split at member
          next => simp at member
          next startPos _ =>
            obtain ⟨id,data',decoded⟩ := Table.iterateFrom_decodes _ r _ startPos i member
            exact (openV2PackIndex_ranged read).entryToInfoStruct decoded
      next => contradiction

end Ranges

section Reopening
variable {b : Builder}

/-- Where a loop succeeds, so does each of its rounds. -/
theorem buildV1_rounds {out : Bytes} (done : b.buildV1 = .ok out) {i : Info} (member : i ∈ b.infos) :
    ∃ entry, (preparedBuilderV1 b.sortedContents).writeEntry i = .ok entry := by
  cases made : (preparedBuilderV1 b.sortedContents).writeEntry i with
  | ok entry => exact ⟨entry,rfl⟩
  | error e =>
    obtain ⟨_,_,e',_,failed⟩ := mapM_error ⟨i,mem_sortedContents.mpr member,e,made⟩
    have whole : b.buildV1 = .error e' := by
      unfold Builder.buildV1
      show Except.bind (b.sortedContents.mapM (preparedBuilderV1 b.sortedContents).writeEntry) _ = _
      rw [failed]
      rfl
    rw [whole] at done
    contradiction

/-- `buildV1` refuses what the format cannot hold, ranges apart. -/
theorem encodableV1_of_built {out : Bytes} (done : b.buildV1 = .ok out) (valid : ∀ i ∈ b.infos, i.contentID.Valid)
    (ranged : ∀ i ∈ b.infos, i.InRange) : b.EncodableV1 := by
  have checked (i : Info) (member : i ∈ b.infos) :
      ((contentIDToBytes i.contentID).length : Int) = (preparedBuilderV1 b.sortedContents).keyLength ∧
        i.compressionHeaderID = 0 ∧ i.encryptionKeyID = 0 ∧ i.packBlobID ≠ [] := by
    obtain ⟨entry,made⟩ := buildV1_rounds done member
    unfold IndexBuilderV1.writeEntry at made
    dsimp only at made
    split at made
    next => contradiction
    next key =>
      split at made
      next => contradiction
      next plain =>
        split at made
        next => contradiction
        next noKey =>
          refine ⟨not_not.mp key,not_not.mp plain,not_not.mp noKey,fun none => ?_⟩
          rw [IndexBuilderV1.formatEntry,none] at made
          contradiction
  refine ⟨valid,fun i member j member' => ?_,fun i member => ⟨(ranged i member).early,(ranged i member).late⟩,
    fun i member => (ranged i member).offset,fun i member => ⟨(checked i member).2.2.2,(ranged i member).name⟩,
    fun i member => ⟨(checked i member).2.1,(checked i member).2.2.1⟩⟩
  exact_mod_cast (checked i member).1.trans (checked j member').1.symm

/-- A file that opens as an index of valid identifiers, whatever it was asked before. -/
structure IndexFile (v1PerContentOverhead : Nat) where
  data : Bytes
  ndx : PackIndex
  index : ValidIndex ReadError
  opens : Open v1PerContentOverhead data = .ok ndx
  answers : ∀ names, ndx.Remembers names → ndx.opened names = index.toOpenedIndex
  ids : ∀ i ∈ index.entries, i.contentID.Valid

/-- All identifiers are between the ends of `AllIDs`. -/
theorem AllIDs_contains (id : ID) : AllIDs.Contains id := by
  have below : id.String < maxIDCharacterPlus1 := by
    have first : ∀ c ∈ id.String.head?, c < 123 := by
      intro c member
      unfold ID.String prefixString at member
      split at member
      next letter =>
        cases Option.some.inj (by simpa using member : some id.idPrefix = some c)
        have upper := UInt8.le_iff_toNat_le.mp letter.2
        rw [UInt8.lt_iff_toNat_lt]
        simp at upper ⊢
        omega
      next =>
        cases shape : id.data with
        | nil => simp [hexEncode,shape] at member
        | cons byte rest =>
          have bound := byte.toNat_lt
          have digit := hexDigit_lt_letter (byte.toNat / 16) (by omega) 123 (by decide)
          cases Option.some.inj (by simpa [hexEncode,shape] using member : some (hexDigit (byte.toNat / 16)) = some c)
          exact digit
    cases shape : id.String with
    | nil => decide
    | cons c rest => exact List.Lex.rel (first c (by simp [shape]))
  unfold IDRange.Contains AllIDs
  have start : id.comparePrefix [] ≠ .lt := by
    unfold ID.comparePrefix
    split <;> split <;> simp_all
  have stop : id.comparePrefix maxIDCharacterPlus1 = .lt := by
    show compareBytes id.String maxIDCharacterPlus1 = .lt
    rw [compareBytes,if_pos below]
  simp [start,stop]

theorem IndexFile.iterate_all {v1PerContentOverhead : Nat} (file : IndexFile v1PerContentOverhead) :
    (file.ndx.opened []).Iterate AllIDs = (file.index.entries,none) := by
  rw [file.answers [] file.ndx.remembers_nil,file.index.iterates]
  simp [AllIDs_contains]

theorem IndexFile.inRange {v1PerContentOverhead : Nat} (file : IndexFile v1PerContentOverhead) :
    ∀ i ∈ file.index.entries, i.InRange := by
  have delivered := Open_inRange file.opens AllIDs
  rwa [file.iterate_all] at delivered

theorem numberAt_take {data : Bytes} {off width n : Nat} (inside : off + width ≤ n) :
    numberAt (data.take n) off width = numberAt data off width := by
  rw [numberAt,numberAt,List.drop_take,List.take_take,Nat.min_eq_left (by omega)]

/-- What opens as an index of version 2 and says so is opened as one. -/
theorem Open_v2 {v1PerContentOverhead : Nat} {data : Bytes} {ndx : IndexV2} (opened : openV2PackIndex data = .ok ndx)
    (version : ndx.hdr.version = 2) : Open v1PerContentOverhead data = .ok (.v2 ndx) := by
  obtain ⟨header,read,key,hdr,_,_⟩ := openV2PackIndex_inv opened
  rw [hdr] at version
  have two : numberAt header 0 1 = 2 := version
  have long : ¬numberAt header 1 1 ≤ 1 := not_le.mpr key
  have head : v1ReadHeader data = .ok ⟨numberAt header 0 1,numberAt header 1 1,numberAt header 2 2,numberAt header 4 4⟩ := by
    rw [v1ReadHeader,slice_take read (by decide : v1HeaderSize ≤ v2IndexHeaderSize)]
    simp only [v1HeaderSize,numberAt_take (by decide : 0 + 1 ≤ 8),numberAt_take (by decide : 1 + 1 ≤ 8),
      numberAt_take (by decide : 2 + 2 ≤ 8),numberAt_take (by decide : 4 + 4 ≤ 8),if_neg long]
  rw [Open,head]
  simp only [two,opened]
  rfl

/-- What a version of the format cannot give back: version 1 makes an original length of the
packed one, and version 2 has 32 bits for the time. -/
def Info.Kept (version : Int) (v1PerContentOverhead : Nat) (i : Info) : Prop :=
  (version = 1 → i.originalLength = i.packedLength - UInt32.ofNat v1PerContentOverhead) ∧
    (version = 2 → i.timestampSeconds < 2 ^ 32)

/-- A builder that is written opens as an index of its entries. -/
theorem BuildStable_opens {version : Int} {out : Bytes} (done : b.BuildStable version = .ok out)
    (valid : ∀ i ∈ b.infos, i.contentID.Valid) (ranged : ∀ i ∈ b.infos, i.InRange) (small : out.length < 2 ^ 32)
    (v1PerContentOverhead : Nat) (kept : ∀ i ∈ b.infos, i.Kept version v1PerContentOverhead) (trailing : Bytes) :
    ∃ file : IndexFile v1PerContentOverhead, file.data = out ++ trailing ∧ file.index.entries = b.sortedContents := by
  have ids : ∀ i ∈ b.sortedContents, i.contentID.Valid := fun i member => valid i (mem_sortedContents.mp member)
  unfold Builder.BuildStable at done
  split at done
  next one =>
    cases built : b.buildV1 with
    | error e =>
      rw [built] at done
      contradiction
    | ok bytes =>
      rw [built] at done
      cases Except.ok.inj done
      obtain ⟨bytes,again,opens⟩ := buildV1_opens (encodableV1_of_built built valid ranged)
      cases Except.ok.inj (built.symm.trans again)
      obtain ⟨ndx,index,opened,answers,entries⟩ := opens small v1PerContentOverhead trailing
      have same : index.entries = b.sortedContents := by
        rw [entries]
        refine (List.map_congr_left fun i member => ?_).trans (List.map_id _)
        have stored := (kept i (mem_sortedContents.mp member)).1 one
        rw [Info.stored,← stored]
        rfl
      exact ⟨⟨_,.v1 ndx,index,opened,answers,same.symm ▸ ids⟩,rfl,same⟩
  next =>
    split at done
    next two =>
      cases built : b.buildV2 with
      | error e =>
        rw [built] at done
        contradiction
      | ok bytes =>
        rw [built] at done
        cases Except.ok.inj done
        have encodable : ¬b.Unencodable := by
          intro unencodable
          obtain ⟨e,failed,_⟩ := buildV2_unencodable unencodable
          rw [failed] at built
          contradiction
        obtain ⟨keySize,written⟩ := written_of_encodable valid encodable
        cases Except.ok.inj (built.symm.trans (buildV2_written written))
        have times : ∀ i ∈ b.sortedContents, 0 ≤ i.timestampSeconds ∧ i.timestampSeconds < 2 ^ 32 := fun i member =>
          ⟨(ranged i (mem_sortedContents.mp member)).early,(kept i (mem_sortedContents.mp member)).2 two⟩
        have opened := openV2PackIndex_eq written small
          (fun i member => (ranged i (mem_sortedContents.mp member)).name) trailing
        have represents := (opened_represents written times trailing).table
        exact ⟨⟨_,_,represents.toValid ids (pairwise_sortedContents valid) written.some,Open_v2 opened rfl,
          fun names _ => IndexV2.opened_table _ names,ids⟩,rfl,rfl⟩
    next => contradiction

end Reopening

end Vbe.Index
