import Vbe.Content.Packs
import Vbe.Content.Recovery
import Vbe.Index.Reopened
import Vbe.Library.Listings
import Vbe.Library.Results
import Vbe.Library.Runs

/-! Recovering the index of a pack gives back the entries of the pack, by the optimized
read as well as by the full one. No bytes make the readers panic. -/
namespace Vbe.Content
open Vbe.Index WriteManager Vbe.Library.Bytes Vbe.Library.Varints Vbe.Library.Listings Vbe.Library.Results Vbe.Library.Runs
open Vbe.Library.Checksums

section Calm

theorem sliced_eq {b : Bytes} {lo hi : Int} (start : 0 ≤ lo) (ordered : lo ≤ hi) (stop : hi ≤ b.length) :
    sliced b lo hi = .ok ((b.drop lo.toNat).take (hi - lo).toNat) := if_pos ⟨start,ordered,stop⟩

theorem sliced_to_end {b : Bytes} {lo : Int} (start : 0 ≤ lo) (stop : lo ≤ b.length) :
    sliced b lo b.length = .ok (b.drop lo.toNat) := by
  rw [sliced_eq start stop le_rfl,List.take_of_length_le]
  rw [List.length_drop]
  omega

theorem uvarintFrom_le (buf : Bytes) (i x s : Nat) : (uvarintFrom buf i x s).2 ≤ (i + buf.length : Nat) := by
  induction buf generalizing i x s with
  | nil => simp [uvarintFrom]
  | cons b rest ih =>
    unfold uvarintFrom
    split
    · simp
      omega
    · split
      · split
        · simp
          omega
        · simp
      · refine le_trans (ih _ _ _) ?_
        simp
        omega

theorem uvarint_le (buf : Bytes) : (uvarint buf).2 ≤ buf.length := by
  have bound := uvarintFrom_le buf 0 0 0
  rwa [Nat.zero_add] at bound

theorem sliced_uvarint {payload : Bytes} {x : Nat} {n : Int} (read : uvarint payload = (x,n)) (some : ¬n ≤ 0) :
    sliced payload n payload.length = .ok (payload.drop n.toNat) := by
  have bound := uvarint_le payload
  rw [read] at bound
  exact sliced_to_end (by omega) bound

/-- No payload makes the decoder panic. -/
theorem decodePostamble_calm (payload : Bytes) : ∃ found, decodePostamble payload = .ok found := by
  have absent : ∃ found, (pure none : Except RecoveryError (Option PackContentPostamble)) = .ok found := ⟨none,rfl⟩
  unfold decodePostamble
  rcases flags : uvarint payload with ⟨_,n⟩
  dsimp only
  split
  next => exact absent
  next some =>
    split
    next => exact absent
    next =>
      rw [sliced_uvarint flags some,ok_bind]
      rcases length : uvarint (payload.drop n.toNat) with ⟨ivLength,n'⟩
      dsimp only
      split
      next => exact absent
      next some =>
        rw [sliced_uvarint length some,ok_bind]
        generalize (payload.drop n.toNat).drop n'.toNat = rest
        split
        next => exact absent
        next inside =>
          rw [sliced_eq (by omega) (by omega) (by omega),ok_bind,sliced_to_end (by omega) (by omega),ok_bind]
          rcases off : uvarint (rest.drop (ivLength : Int).toNat) with ⟨_,m⟩
          dsimp only
          split
          next => exact absent
          next some =>
            rw [sliced_uvarint off some,ok_bind]
            split
            next => exact absent
            next => exact ⟨_,rfl⟩

theorem findPostamble_calm (b : Bytes) : ∃ found, findPostamble b = .ok found := by
  have absent : ∃ found, (pure none : Except RecoveryError (Option PackContentPostamble)) = .ok found := ⟨none,rfl⟩
  unfold findPostamble
  split
  next => exact absent
  next last _ =>
    dsimp only
    split
    next => exact absent
    next long =>
      split
      next => exact absent
      next start =>
        rw [sliced_eq (by omega) (by omega) (by omega),ok_bind]
        generalize postamble : (b.drop _).take _ = postambleBytes
        have length : (postambleBytes.length : Int) = last.toNat := by
          rw [← postamble,List.length_take,List.length_drop]
          omega
        rw [sliced_eq (by omega) (by omega) (by omega),ok_bind,sliced_to_end (by omega) (by omega),ok_bind]
        split
        next => exact absent
        next => exact decodePostamble_calm _

theorem appendRest_eq (slices : List Bytes) {size : Int} (sized : 0 ≤ size) :
    appendRest slices size = .ok (slices.flatten.take size.toNat) := by
  induction slices generalizing size with
  | nil => simp [appendRest]
  | cons s rest ih =>
    unfold appendRest
    rw [List.flatten_cons,List.take_append]
    split
    next more =>
      dsimp only
      split
      next longer =>
        have left : (size - s.length).toNat = size.toNat - s.length := by omega
        rw [sliced_to_end (by omega) (by omega),ok_bind,ih (by omega),ok_bind,left,
          List.take_of_length_le (l := s) (by omega)]
        rfl
      next shorter =>
        have left : size.toNat - s.length = 0 := by omega
        rw [sliced_eq (by omega) (by omega) (by omega),ok_bind,ih (by omega),ok_bind,left]
        simp [pure,Except.pure]
    next none =>
      have zero : size.toNat = 0 := by omega
      simp [zero]

theorem appendSectionTo_eq (slices : List Bytes) {offset size : Int} (start : 0 ≤ offset) (sized : 0 ≤ size) :
    appendSectionTo slices offset size = .ok ((slices.flatten.drop offset.toNat).take size.toNat) := by
  unfold appendSectionTo
  rw [if_neg (by omega)]
  induction slices generalizing offset with
  | nil => simp [findSlice]
  | cons bs rest ih =>
    rw [List.flatten_cons,List.drop_append]
    unfold findSlice
    by_cases here : offset < bs.length
    · have none : offset.toNat - bs.length = 0 := by omega
      rw [if_pos here,none,List.drop_zero]
      dsimp only
      rw [List.take_append,List.length_drop]
      split
      next fits =>
        have left : size.toNat - (bs.length - offset.toNat) = 0 := by omega
        rw [sliced_eq start (by omega) fits,ok_bind,appendRest_eq rest (by omega),ok_bind,left]
        simp [pure,Except.pure]
      next longer =>
        have stop : offset + (bs.length - offset) = bs.length := by omega
        have left : (size - (bs.length - offset)).toNat = size.toNat - (bs.length - offset.toNat) := by omega
        rw [stop,sliced_to_end start (by omega),ok_bind,appendRest_eq rest (by omega),ok_bind,left,
          List.take_of_length_le (l := bs.drop offset.toNat) (by rw [List.length_drop]; omega)]
        rfl
    · have left : (offset - bs.length).toNat = offset.toNat - bs.length := by omega
      have later : 0 ≤ offset - bs.length := by omega
      have after := ih later
      have gone : bs.drop offset.toNat = [] := List.drop_eq_nil_of_le (by omega)
      rw [if_neg here,after,left,gone]
      rfl

/-- Whatever is stored, an attempt to read a local index does not panic. -/
theorem SharedManager.attemptReadPackFileLocalIndex_calm (sm : SharedManager) (packFile : BlobID) (offset length : Int) :
    sm.attemptReadPackFileLocalIndex packFile offset length ≠ .error .panicked := by
  unfold attemptReadPackFileLocalIndex
  split
  next => simp
  next payload _ =>
    obtain ⟨found,read⟩ := findPostamble_calm payload
    rw [read,ok_bind]
    split
    next => simp
    next postamble =>
      dsimp only
      split
      next => simp
      next =>
        split
        next => simp
        next =>
          rw [appendSectionTo_eq _ (by omega) (by omega),ok_bind]
          split
          next => simp
          next => simp

end Calm

section Trailer
variable {p : PackContentPostamble} {bytes : Bytes}

theorem sliced_after (first rest : Bytes) : sliced (first ++ rest) first.length (first ++ rest).length = .ok rest := by
  rw [sliced_to_end (by omega) (by simp)]
  simp

theorem sliced_before (first rest : Bytes) : sliced (first ++ rest) 0 first.length = .ok first := by
  rw [sliced_eq le_rfl (by omega) (by simp)]
  simp

theorem sliced_middle (before middle after : Bytes) :
    sliced (before ++ middle ++ after) before.length (before.length + middle.length : Nat) = .ok middle := by
  have len : ((before.length + middle.length : Nat) : Int) - before.length = middle.length := by omega
  rw [sliced_eq (by omega) (by omega) (by simp),len,List.append_assoc]
  simp

theorem not_putUvarint_le (x : UInt64) : ¬((putUvarint x).length : Int) ≤ 0 := by
  have some := putUvarint_length_pos x
  omega

/-- The decoder reads what the payload was made of. -/
theorem decodePostamble_payload (short : p.localIndexIV.length < 2 ^ 64) : decodePostamble p.payload = .ok (some p) := by
  have length : (UInt64.ofNat p.localIndexIV.length).toNat = p.localIndexIV.length := by
    rw [UInt64.toNat_ofNat']
    exact Nat.mod_eq_of_lt short
  have inside (rest : Bytes) : ¬p.localIndexIV.length > (p.localIndexIV ++ rest).length := by simp
  have last : uvarint (putUvarint p.localIndexLength.toUInt64) =
      (p.localIndexLength.toUInt64.toNat,((putUvarint p.localIndexLength.toUInt64).length : Int)) := by
    have read := uvarint_putUvarint p.localIndexLength.toUInt64 []
    rwa [List.append_nil] at read
  unfold decodePostamble PackContentPostamble.payload
  simp only [List.append_assoc,uvarint_putUvarint,not_putUvarint_le,if_false,sliced_after,ok_bind,length,inside,
    sliced_before,last]
  simp [pure,Except.pure]

theorem toBytes_shape (made : p.toBytes = some bytes) :
    bytes = p.payload ++ toBigEndian 4 (ChecksumIEEE p.payload).toNat ++ [UInt8.ofNat (p.payload.length + 4)] ∧
      p.payload.length + 4 ≤ 255 := by
  unfold PackContentPostamble.toBytes at made
  dsimp only at made
  split at made
  next => contradiction
  next short =>
    rw [List.length_append,length_toBigEndian] at made short
    exact ⟨(Option.some.inj made).symm,not_lt.mp short⟩

/-- The postamble is found at the end of whatever it ends. -/
theorem findPostamble_toBytes (made : p.toBytes = some bytes) (before : Bytes) :
    findPostamble (before ++ bytes) = .ok (some p) := by
  obtain ⟨shape,short⟩ := toBytes_shape made
  have ivShort : p.localIndexIV.length < 2 ^ 64 := by
    have part : p.localIndexIV.length ≤ p.payload.length := by
      simp [PackContentPostamble.payload]
      omega
    omega
  have some : 0 < p.payload.length := by
    have first := putUvarint_length_pos 1
    simp only [PackContentPostamble.payload,List.length_append]
    omega
  have size : (UInt8.ofNat (p.payload.length + 4)).toNat = p.payload.length + 4 := by
    rw [UInt8.toNat_ofNat']
    omega
  have sum : ofBigEndian (toBigEndian 4 (ChecksumIEEE p.payload).toNat) = (ChecksumIEEE p.payload).toNat :=
    ofBigEndian_of_lt (ChecksumIEEE p.payload).toNat_lt
  rw [shape,← List.append_assoc]
  generalize checksum : toBigEndian 4 (ChecksumIEEE p.payload).toNat = checksumBytes at *
  have four : checksumBytes.length = 4 := by rw [← checksum,length_toBigEndian]
  have whole : (before ++ (p.payload ++ checksumBytes) ++ [UInt8.ofNat (p.payload.length + 4)]).length =
      before.length + (p.payload.length + 4) + 1 := by
    simp only [List.length_append,List.length_singleton,four]
  have postamble : sliced (before ++ (p.payload ++ checksumBytes) ++ [UInt8.ofNat (p.payload.length + 4)])
      before.length (before.length + (p.payload.length + 4) : Nat) = .ok (p.payload ++ checksumBytes) := by
    have part : (p.payload ++ checksumBytes).length = p.payload.length + 4 := by rw [List.length_append,four]
    rw [← part]
    exact sliced_middle _ _ _
  unfold findPostamble
  rw [List.getLast?_concat]
  dsimp only
  have start : (((before ++ (p.payload ++ checksumBytes) ++ [UInt8.ofNat (p.payload.length + 4)]).length : Int) - 1 -
      (UInt8.ofNat (p.payload.length + 4)).toNat) = before.length := by omega
  have stop : (((before ++ (p.payload ++ checksumBytes) ++ [UInt8.ofNat (p.payload.length + 4)]).length : Int) - 1) =
      (before.length + (p.payload.length + 4) : Nat) := by omega
  have split : ((p.payload ++ checksumBytes).length : Int) - 4 = p.payload.length := by
    rw [List.length_append,four]
    omega
  rw [start,stop,postamble,ok_bind,split,sliced_before,ok_bind,sliced_after,ok_bind,if_neg (by omega),
    if_neg (by omega),if_neg (by simp [sum])]
  exact decodePostamble_payload ivShort

end Trailer

section Reads
variable {sm : SharedManager} {packFile : BlobID} {contents encrypted postambleBytes localIndex : Bytes}
  {p : PackContentPostamble}

/-- A stored pack that ends with its local index and a postamble that describes it. -/
structure Recoverable (sm : SharedManager) (packFile : BlobID) (contents encrypted postambleBytes localIndex : Bytes)
    (p : PackContentPostamble) : Prop where
  stored : sm.blobs packFile = some (contents ++ encrypted ++ postambleBytes)
  whole : ∀ b, (sm.slices b).flatten = b
  small : (contents ++ encrypted ++ postambleBytes).length < 2 ^ 32
  made : p.toBytes = some postambleBytes
  offset : p.localIndexOffset = UInt32.ofNat contents.length
  length : p.localIndexLength = UInt32.ofNat encrypted.length
  decrypted : sm.codec.decrypt p.localIndexIV encrypted = some localIndex

/-- A read of the end of the pack gives the local index where all of it is read. -/
theorem Recoverable.attempt (pack : Recoverable sm packFile contents encrypted postambleBytes localIndex p)
    {offset : Nat} {length : Int}
    (got : sm.getBlob packFile offset length = some ((contents ++ encrypted ++ postambleBytes).drop offset))
    (ending : offset + postambleBytes.length ≤ (contents ++ encrypted ++ postambleBytes).length) :
    sm.attemptReadPackFileLocalIndex packFile offset length =
      if offset ≤ contents.length then .ok localIndex else .error .notEnoughData := by
  have small := pack.small
  have lengths : (contents ++ encrypted ++ postambleBytes).length =
      contents.length + encrypted.length + postambleBytes.length := by
    rw [List.length_append,List.length_append]
  have off : p.localIndexOffset.toNat = contents.length := by
    rw [pack.offset,UInt32.toNat_ofNat']
    omega
  have len : p.localIndexLength.toNat = encrypted.length := by
    rw [pack.length,UInt32.toNat_ofNat']
    omega
  have start : (UInt32.ofInt offset).toNat = offset := by
    rw [UInt32.ofInt,UInt32.toNat_ofNat']
    omega
  have found : findPostamble ((contents ++ encrypted ++ postambleBytes).drop offset) = .ok (some p) := by
    rw [List.drop_append_of_le_length (by rw [List.length_append]; omega)]
    exact findPostamble_toBytes pack.made _
  unfold SharedManager.attemptReadPackFileLocalIndex
  rw [got]
  dsimp only
  rw [found,ok_bind]
  dsimp only
  by_cases inside : offset ≤ contents.length
  · have rebased : (p.localIndexOffset - UInt32.ofInt offset).toNat = contents.length - offset := by
      rw [UInt32.toNat_sub_of_le _ _ (by rw [UInt32.le_iff_toNat_le]; omega),off,start]
    have fits : (p.localIndexOffset - UInt32.ofInt offset + p.localIndexLength).toNat =
        contents.length - offset + encrypted.length := by
      rw [UInt32.toNat_add,rebased,len]
      omega
    have section_eq : (((contents ++ encrypted ++ postambleBytes).drop offset).drop (contents.length - offset)).take
        encrypted.length = encrypted := by
      rw [List.drop_drop,Nat.add_sub_cancel' inside,List.append_assoc,List.drop_left,List.take_left]
    rw [if_pos inside,if_neg (by rw [gt_iff_lt,UInt32.lt_iff_toNat_lt]; omega),
      if_neg (by rw [fits,List.length_drop]; omega),appendSectionTo_eq _ (by omega) (by omega),ok_bind,pack.whole,rebased,
      len,Int.toNat_natCast,Int.toNat_natCast,section_eq,pack.decrypted]
  · rw [if_neg inside,if_pos (by rw [gt_iff_lt,UInt32.lt_iff_toNat_lt]; omega)]

/-- The local index is read whether or not the length of the pack is known. -/
theorem Recoverable.read (pack : Recoverable sm packFile contents encrypted postambleBytes localIndex p)
    {packFileLength : Int} (known : packFileLength = (contents ++ encrypted ++ postambleBytes).length ∨
      packFileLength < indexRecoverPostambleSize) : sm.readPackFileLocalIndex packFile packFileLength = .ok localIndex := by
  have short : postambleBytes.length ≤ 256 := by
    obtain ⟨shape,bound⟩ := toBytes_shape pack.made
    rw [shape]
    simp only [List.length_append,length_toBigEndian,List.length_singleton]
    omega
  have full : sm.attemptReadPackFileLocalIndex packFile 0 (-1) = .ok localIndex := by
    have got : sm.getBlob packFile 0 (-1) = some ((contents ++ encrypted ++ postambleBytes).drop 0) := by
      simp [SharedManager.getBlob,pack.stored]
    have ending : 0 + postambleBytes.length ≤ (contents ++ encrypted ++ postambleBytes).length := by
      rw [List.length_append]
      omega
    exact (pack.attempt got ending).trans (if_pos (Nat.zero_le _))
  unfold SharedManager.readPackFileLocalIndex
  split
  next long =>
    have same := known.resolve_right (not_lt.mpr long)
    simp only [indexRecoverPostambleSize] at long
    obtain ⟨offset,shift⟩ : ∃ offset : Nat, packFileLength - indexRecoverPostambleSize = offset := by
      refine ⟨(packFileLength - indexRecoverPostambleSize).toNat,?_⟩
      simp only [indexRecoverPostambleSize]
      omega
    have total : offset + 8192 = (contents ++ encrypted ++ postambleBytes).length := by
      simp only [indexRecoverPostambleSize] at shift
      omega
    have got : sm.getBlob packFile offset indexRecoverPostambleSize =
        some ((contents ++ encrypted ++ postambleBytes).drop offset) := by
      rw [SharedManager.getBlob,pack.stored]
      dsimp only
      rw [if_neg (by decide),if_neg (by omega),slice,if_pos (by simp only [indexRecoverPostambleSize]; omega),
        List.take_of_length_le]
      · rfl
      · rw [List.length_drop]
        simp only [indexRecoverPostambleSize]
        omega
    rw [shift,pack.attempt got (by omega)]
    by_cases inside : offset ≤ contents.length
    · rw [if_pos inside]
    · rw [if_neg inside]
      exact full
  next => exact full

end Reads

section Entries
variable {sm : SharedManager} {version overhead : Nat} {pp pp' : PendingPackInfo}

/-- The ranges of an index version: 48 bits for times in version 1 and 32 in version 2, 31 bits
for offsets, a byte for the length of names; version 1 makes original lengths of packed ones. -/
structure Info.Fits (version overhead : Nat) (i : Info) : Prop where
  valid : i.contentID.Valid
  early : 0 ≤ i.timestampSeconds
  late : i.timestampSeconds < if version = 2 then 2 ^ 32 else 2 ^ 48
  offset : version = 1 → i.packOffset.toNat < 2 ^ 31
  name : i.packBlobID.length ≤ 255
  length : version = 1 → i.compressionHeaderID = 0 → i.originalLength = i.packedLength - UInt32.ofNat overhead

/-- What is entered keeps to the ranges of an index version. For a content this concerns its
time and, in version 1, the position at which it is appended. -/
def PackOp.Fits (version overhead : Nat) (pp : PendingPackInfo) : PackOp → Prop
  | .add env a => a.contentID.Valid ∧ 0 ≤ contentWriteTime env a.previousWriteTime ∧
      (contentWriteTime env a.previousWriteTime < if version = 2 then 2 ^ 32 else 2 ^ 48) ∧
      (version = 1 → pp.currentPackData.length < 2 ^ 31)
  | .remove _ => True
  | .deletion env ci =>
      Info.Fits version overhead (deletedInfo ci (contentWriteTime env ci.timestampSeconds))

/-- What is relied on from encryption and from write buffers. -/
structure SharedManager.Lawful (sm : SharedManager) : Prop where
  decrypt_encrypt : ∀ nonce iv data, sm.codec.decrypt iv (sm.codec.encrypt nonce iv data) = some data
  encrypt_length : ∀ nonce iv data, (sm.codec.encrypt nonce iv data).length = data.length + sm.overhead
  whole : ∀ b, (sm.slices b).flatten = b

/-- What is not compressed is encrypted as it is. -/
theorem packed_uncompressed {codec : Codec} {data packed : Bytes} {c : ID} {comp actualComp : UInt32}
    {mp : MutableParameters} {nonce : Bytes}
    (done : codec.maybeCompressAndEncryptDataForPacking data c comp mp nonce = some (actualComp,packed))
    (plain : actualComp = 0) : packed = codec.encrypt nonce (getPackedContentIV c) data := by
  unfold Codec.maybeCompressAndEncryptDataForPacking at done
  dsimp only at done
  generalize (if c.HasPrefix ∧ comp = NoCompression ∧ mp.indexVersion ≥ 2 then HeaderZstdFastest else comp) = used at done
  split at done
  next compresses =>
    split at done
    next => contradiction
    next =>
      split at done
      next => contradiction
      next =>
        split at done
        next => contradiction
        next tmp _ =>
          split at done
          next =>
            cases done
            rfl
          next =>
            cases done
            exact absurd plain compresses
  next =>
    cases done
    rfl

/-- A pack that is being filled, with entries that fit. -/
structure Filling (version overhead : Nat) (pp : PendingPackInfo) : Prop where
  open_ : pp.finalized = false
  name : pp.packBlobID.length ≤ 255
  fits : ∀ i ∈ pp.currentPackItems.infos, Info.Fits version overhead i

theorem mem_infos_set {b : Builder} {x i : Info} (member : i ∈ (b.set x).infos) : i = x ∨ i ∈ b.infos := by
  rw [Builder.mem_infos,Builder.get?_set] at member
  split at member
  next => exact Or.inl (Option.some.inj member).symm
  next => exact Or.inr (Builder.mem_infos.mpr member)

theorem mem_infos_erase {b : Builder} {c : ID} {i : Info} (member : i ∈ (b.erase c).infos) : i ∈ b.infos := by
  rw [Builder.mem_infos,Builder.get?_erase] at member
  split at member
  next => contradiction
  next => exact Builder.mem_infos.mpr member

theorem Filling.step (lawful : sm.Lawful) (filling : Filling version sm.overhead pp) {op : PackOp}
    (fits : op.Fits version sm.overhead pp) (taken : op.apply sm.codec pp = some pp') : Filling version sm.overhead pp' := by
  cases op with
  | add env a =>
    simp only [PackOp.apply] at taken
    split at taken
    next => contradiction
    next actualComp packed encrypted =>
      cases Option.some.inj taken
      refine ⟨filling.open_,filling.name,fun i member => ?_⟩
      rcases mem_infos_set member with rfl | old
      · obtain ⟨valid,early,late,offset⟩ := fits
        refine ⟨valid,early,late,fun one => ?_,filling.name,fun _ plain => ?_⟩
        · have bound := offset one
          show (UInt32.ofNat pp.currentPackData.length).toNat < 2 ^ 31
          rw [UInt32.toNat_ofNat']
          omega
        · show UInt32.ofNat a.data.length =
            UInt32.ofNat (pp.currentPackData ++ packed).length - UInt32.ofNat pp.currentPackData.length -
              UInt32.ofNat sm.overhead
          rw [packed_uncompressed encrypted plain,List.length_append,lawful.encrypt_length,UInt32.ofNat_add,
            UInt32.ofNat_add]
          grind
      · exact filling.fits i old
  | remove contentID =>
    cases Option.some.inj taken
    exact ⟨filling.open_,filling.name,fun i member => filling.fits i (mem_infos_erase member)⟩
  | deletion env ci =>
    simp only [PackOp.apply] at taken
    split at taken
    next =>
      cases Option.some.inj taken
      exact filling
    next =>
      cases Option.some.inj taken
      refine ⟨filling.open_,filling.name,fun i member => ?_⟩
      rcases mem_infos_set member with rfl | old
      · exact fits
      · exact filling.fits i old

end Entries

section Recovering
variable {sm : SharedManager} {mp : MutableParameters} {random : Randomness} {pp pp' : PendingPackInfo}
  {packFileIndex : Builder}

/-- A pack that is prepared for the first time, with a content of its own, ends with its index. -/
theorem preparePackDataContent_ending (done : sm.preparePackDataContent mp random pp = (pp',some packFileIndex))
    (unfinished : pp.finalized = false) (own : ∃ i ∈ pp.currentPackItems.infos, i.packBlobID = pp.packBlobID) :
    packFileIndex = Builder.empty.addAll pp.currentPackItems.infos ∧
    ∃ contents localIndex postambleBytes, packFileIndex.Build mp.indexVersion random.suffix = .ok localIndex ∧
      pp'.currentPackData = contents ++ sm.codec.encrypt random.nonce (sm.codec.hashData localIndex) localIndex ++
        postambleBytes ∧
      (⟨sm.codec.hashData localIndex,UInt32.ofNat contents.length,
        UInt32.ofNat (sm.codec.encrypt random.nonce (sm.codec.hashData localIndex) localIndex).length⟩ :
        PackContentPostamble).toBytes = some postambleBytes := by
  obtain ⟨i,member,ours⟩ := own
  have there : (Builder.empty.addAll pp.currentPackItems.infos).infos ≠ [] := by
    refine List.ne_nil_of_mem (a := i) ?_
    rw [Builder.mem_infos,get?_packFileIndex,← Builder.mem_infos]
    exact member
  have have_ : (pp.currentPackItems.infos.any fun info => info.packBlobID = pp.packBlobID) = true :=
    List.any_eq_true.mpr ⟨i,member,by simpa using ours⟩
  unfold SharedManager.preparePackDataContent at done
  dsimp only at done
  rw [if_neg there,if_neg (by simp [have_]),if_neg (by simp [unfinished])] at done
  split at done
  next => cases done
  next data _ =>
    split at done
    next output appended =>
      cases done
      refine ⟨rfl,data,?_⟩
      unfold SharedManager.appendPackFileIndexRecoveryData at appended
      dsimp only at appended
      split at appended
      next => cases appended
      next localIndex built =>
        split at appended
        next => cases appended
        next postambleBytes made =>
          cases appended
          exact ⟨localIndex,postambleBytes,built,rfl,made⟩
    next => cases done

/-- What is written as an index of a version, from entries that fit, opens as an index of them. -/
theorem Build_opens {version overhead : Nat} {b : Builder} {suffix : Option Bytes} {data : Bytes}
    (done : b.Build version suffix = .ok data) (fits : ∀ i ∈ b.infos, Info.Fits version overhead i)
    (small : data.length < 2 ^ 32) :
    ∃ file : IndexFile overhead, file.data = data ∧ file.index.entries = b.sortedContents := by
  obtain ⟨out,trailing,built,rfl⟩ := Builder.Build_ok done
  have valid : ∀ i ∈ b.infos, i.contentID.Valid := fun i member => (fits i member).valid
  have outSmall : out.length < 2 ^ 32 := by
    rw [List.length_append] at small
    omega
  have late : ∀ i ∈ b.infos, i.timestampSeconds < 2 ^ 48 := by
    intro i member
    have bound := (fits i member).late
    split at bound <;> omega
  have ranged : ∀ i ∈ b.infos, i.InRange := by
    refine fun i member => ⟨(fits i member).early,late i member,?_,(fits i member).name⟩
    by_cases one : version = 1
    · exact (fits i member).offset one
    · have stable := built
      have other : ¬(version : Int) = Version1.toNat := by
        show ¬(version : Int) = (1 : Nat)
        omega
      unfold Builder.BuildStable at stable
      rw [if_neg other] at stable
      split at stable
      next =>
        by_contra large
        obtain ⟨e,failed,_⟩ := buildV2_unencodable (b := b)
          (Or.inr (Or.inr (Or.inr (Or.inr ⟨i,member,Or.inr (Or.inr (by omega))⟩))))
        rw [failed] at stable
        contradiction
      next => contradiction
  have kept : ∀ i ∈ b.infos, i.Kept version overhead := by
    refine fun i member => ⟨fun one => ?_,fun two => ?_⟩
    · have encodable : b.EncodableV1 := by
        have first : (version : Int) = Version1.toNat := one
        unfold Builder.BuildStable at built
        rw [if_pos first] at built
        cases v1 : b.buildV1 with
        | error e =>
          rw [v1] at built
          contradiction
        | ok bytes => exact encodableV1_of_built v1 valid ranged
      exact (fits i member).length (by exact_mod_cast one) (encodable.plain i member).1
    · have bound := (fits i member).late
      rwa [if_pos (by exact_mod_cast two)] at bound
  exact BuildStable_opens built valid ranged outSmall overhead kept trailing

end Recovering

section Concrete

/-- Storage with one pack, and encryption that changes nothing. -/
def plainShared (packFile : BlobID) (data : Bytes) : SharedManager where
  codec := plainCodec
  overhead := 0
  paddingUnit := 0
  blobs name := if name = packFile then some data else none
  slices b := [b]

theorem plainShared_lawful (packFile : BlobID) (data : Bytes) : (plainShared packFile data).Lawful :=
  ⟨fun _ _ _ => rfl,fun _ _ _ => rfl,fun b => List.append_nil b⟩

def addOne (now : Int) : List PackOp := [.add (clock now []) ⟨⟨0,[1]⟩,[1],false,NoCompression,0,roomy⟩]

/-- A pack with one content, added at a time. -/
def packOfOne (now : Int) : PendingPackInfo :=
  appendContent (newPack (clock now []) [112])
    (newInfo (clock now []) (newPack (clock now []) [112]) ⟨⟨0,[1]⟩,[1],false,NoCompression,0,roomy⟩ NoCompression [1]) [1]

def prepareOne (now : Int) : PendingPackInfo × Option Builder :=
  (plainShared [] []).preparePackDataContent roomy ⟨[],some [7],[]⟩ (packOfOne now)

def storeOne (now : Int) : SharedManager := plainShared (prepareOne now).1.packBlobID (prepareOne now).1.currentPackData

theorem run_addOne (now : Int) :
    run (PackOp.apply plainCodec) (newPack (clock now []) [112]) (addOne now) = some (packOfOne now) := rfl

theorem storeOne_stored (now : Int) :
    (storeOne now).blobs (prepareOne now).1.packBlobID = some (prepareOne now).1.currentPackData := if_pos rfl

end Concrete

end Vbe.Content
