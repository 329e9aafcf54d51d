import Vbe.Index.Id
import Vbe.Library.Bytes
import Vbe.Library.Results

/-! Replicas of the format blob: its content with a checksum and its length on both ends, put before or
after other data, and the search for it in a blob of which only the two ends are read. -/
namespace Vbe.Format.Replicas
open Vbe.Index (Bytes)
open Vbe.Library.Bytes
open Vbe.Library.Results

def lengthOfRecoverBlockLength : Nat := 2

def maxChecksummedFormatBytesLength : Nat := 65000

def maxRecoverChunkLength : Int := 65536

def minRecoverableChunkLength : Int := lengthOfRecoverBlockLength + 2

def formatBlobChecksumSize : Nat := 32

/-- HMAC-SHA256 under the secret of format blobs. -/
structure Checksum where
  sum : Bytes → Bytes
  size : ∀ data, (sum data).length = formatBlobChecksumSize

inductive Error where
  | tooBig (length : Nat)
  | storage (text : String)
  | listing (cause : Error)
  | gettingPrefix (blobID : Bytes) (cause : Error)
  | gettingSuffix (blobID : Bytes) (cause : Error)
  | foundMultiple (given : Bytes)
  | blobNotFound
  | formatBlobNotFound
  | panicked
deriving DecidableEq

structure Metadata where
  BlobID : Bytes
  Length : Int

/-- A listing reports blobs and then may fail. -/
structure Storage where
  GetBlob : Bytes → Int → Int → Except Error Bytes
  ListBlobs : Bytes → List Metadata × Except Error Unit

/-- A slice expression. -/
def part (data : Bytes) (off len : Nat) : Except Error Bytes :=
  match slice data off len with
  | none => .error .panicked
  | some bytes => .ok bytes

def decodeInt16 : Bytes → Except Error Nat
  | low :: high :: _ => .ok (low.toNat + high.toNat * 256)
  | _ => .error .panicked

def encodeInt16 (l : Nat) : Bytes := [UInt8.ofNat l,UInt8.ofNat (l / 256)]

variable (hmac : Checksum)

def verifyFormatBlobChecksum (b : Bytes) : Option Bytes :=
  if b.length < formatBlobChecksumSize then none
  else
    let data := b.take (b.length - formatBlobChecksumSize)
    if hmac.sum data ≠ b.drop (b.length - formatBlobChecksumSize) then none else some data

/-- The checksummed bytes of length `l` at `off`, if such a length is allowed in the chunk. -/
def verifiedPart (chunk : Bytes) (off l : Nat) : Except Error (Option Bytes) :=
  if l ≤ maxChecksummedFormatBytesLength ∧ l + lengthOfRecoverBlockLength < chunk.length then do
    let checksummed ← part chunk off l
    pure (verifyFormatBlobChecksum hmac checksummed)
  else pure none

def chunkLengthOf (length : Int) : Int := if maxRecoverChunkLength > length then length else maxRecoverChunkLength

def wrapped (wrap : Error → Error) (result : Except Error α) : Except Error α :=
  match result with
  | .error e => .error (wrap e)
  | .ok a => .ok a

def suffixPart (suffixChunk : Bytes) : Except Error (Option Bytes) := do
  let tail ← part suffixChunk (suffixChunk.length - lengthOfRecoverBlockLength) lengthOfRecoverBlockLength
  let l ← decodeInt16 tail
  verifiedPart hmac suffixChunk (suffixChunk.length - lengthOfRecoverBlockLength - l) l

def prefixPart (prefixChunk : Bytes) : Except Error (Option Bytes) := do
  let l ← decodeInt16 prefixChunk
  verifiedPart hmac prefixChunk lengthOfRecoverBlockLength l

def recoverFormatBlobWithLength (st : Storage) (blobID : Bytes) (length : Int) : Except Error Bytes :=
  if chunkLengthOf length ≤ minRecoverableChunkLength then .error .formatBlobNotFound
  else do
    let prefixChunk ← wrapped (.gettingPrefix blobID) (st.GetBlob blobID 0 (chunkLengthOf length))
    let found ← prefixPart hmac prefixChunk
    match found with
    | some b => .ok b
    | none => do
      let suffixChunk ← wrapped (.gettingSuffix blobID)
        (st.GetBlob blobID (length - chunkLengthOf length) (chunkLengthOf length))
      let found ← suffixPart hmac suffixChunk
      match found with
      | some b => .ok b
      | none => .error .formatBlobNotFound

/-- The callback of the listing, which ends it at the second blob. -/
def foundOnly (blobID : Bytes) : Option Metadata → List Metadata → Except Error (Option Metadata)
  | found, [] => .ok found
  | found, bm :: rest =>
    match found with
    | none => foundOnly blobID (if bm.BlobID = [] then none else some bm) rest
    | some _ => .error (.foundMultiple blobID)

def theOnlyBlob (st : Storage) (blobID : Bytes) : Except Error (Option Metadata) := do
  let only ← foundOnly blobID none (st.ListBlobs blobID).1
  (st.ListBlobs blobID).2
  pure only

def RecoverFormatBlob (st : Storage) (blobID : Bytes) (optionalLength : Int) : Except Error Bytes :=
  if optionalLength > 0 then recoverFormatBlobWithLength hmac st blobID optionalLength
  else do
    let foundMetadata ← wrapped .listing (theOnlyBlob st blobID)
    match foundMetadata with
    | none => .error .blobNotFound
    | some bm => recoverFormatBlobWithLength hmac st bm.BlobID bm.Length

def addFormatBlobChecksumAndLength (fb : Bytes) : Except Error Bytes :=
  let checksummedFormatBytes := fb ++ hmac.sum fb
  let l := checksummedFormatBytes.length
  if l > maxChecksummedFormatBytesLength then .error (.tooBig l)
  else .ok (encodeInt16 l ++ checksummedFormatBytes ++ encodeInt16 l)

/-- A chunk begins with the length and the checksummed bytes of a content, and goes on after them. -/
def BeginsWith (chunk g : Bytes) : Prop :=
  (g ++ hmac.sum g).length ≤ maxChecksummedFormatBytesLength ∧
    ∃ rest, rest ≠ [] ∧ chunk = encodeInt16 (g ++ hmac.sum g).length ++ (g ++ hmac.sum g) ++ rest

/-- The mirror image, with the length last. -/
def EndsWith (chunk g : Bytes) : Prop :=
  (g ++ hmac.sum g).length ≤ maxChecksummedFormatBytesLength ∧
    ∃ before, before ≠ [] ∧ chunk = before ++ (g ++ hmac.sum g) ++ encodeInt16 (g ++ hmac.sum g).length

variable {hmac}

theorem verifyFormatBlobChecksum_iff {b g : Bytes} : verifyFormatBlobChecksum hmac b = some g ↔ b = g ++ hmac.sum g := by
  unfold verifyFormatBlobChecksum
  constructor
  · intro verified
    split at verified
    next short => contradiction
    next long =>
      dsimp only at verified
      split at verified
      next other => contradiction
      next same =>
        cases Option.some.inj verified
        rw [not_not.mp same,List.take_append_drop]
  · rintro rfl
    have size := hmac.size g
    have cut : (g ++ hmac.sum g).length - formatBlobChecksumSize = g.length := by simp [size]
    rw [if_neg (by simp [size]),cut]
    simp

theorem decodeInt16_iff {b : Bytes} {l : Nat} :
    decodeInt16 b = .ok l ↔ l < 65536 ∧ ∃ rest, b = encodeInt16 l ++ rest := by
  constructor
  · intro decoded
    match b with
    | low :: high :: rest =>
      cases decoded
      have lowByte := low.toNat_lt
      have highByte := high.toNat_lt
      refine ⟨by omega,rest,?_⟩
      have first : UInt8.ofNat (low.toNat + high.toNat * 256) = low := UInt8.toNat_inj.mp (by simp)
      have second : (low.toNat + high.toNat * 256) / 256 = high.toNat := by omega
      simp [encodeInt16,first,second]
  · rintro ⟨bound,rest,rfl⟩
    simp only [encodeInt16,List.cons_append,decodeInt16,UInt8.toNat_ofNat']
    congr 1
    omega

theorem decodeInt16_total {b : Bytes} (two : 2 ≤ b.length) : ∃ l, decodeInt16 b = .ok l := by
  match b with
  | low :: high :: rest => exact ⟨_,rfl⟩

theorem part_inside {data : Bytes} {off len : Nat} (inside : off + len ≤ data.length) :
    part data off len = .ok ((data.drop off).take len) := by
  rw [part,slice,if_pos inside]

/-- The bounds check is the one under which the slice exists. -/
theorem verifiedPart_eq {chunk : Bytes} {off l : Nat} (inside : l + 2 < chunk.length → off + l ≤ chunk.length) :
    verifiedPart hmac chunk off l =
      .ok (if l ≤ maxChecksummedFormatBytesLength ∧ l + lengthOfRecoverBlockLength < chunk.length
        then verifyFormatBlobChecksum hmac ((chunk.drop off).take l) else none) := by
  unfold verifiedPart
  split
  next allowed =>
    rw [part_inside (inside allowed.2)]
    rfl
  next => rfl

theorem prefixPart_total {chunk : Bytes} (two : 2 ≤ chunk.length) : ∃ r, prefixPart hmac chunk = .ok r := by
  obtain ⟨l,decoded⟩ := decodeInt16_total two
  rw [prefixPart,decoded,ok_bind,verifiedPart_eq (by simp only [lengthOfRecoverBlockLength]; omega)]
  exact ⟨_,rfl⟩

theorem prefixPart_iff {chunk g : Bytes} : prefixPart hmac chunk = .ok (some g) ↔ BeginsWith hmac chunk g := by
  unfold prefixPart
  rw [bind_ok]
  constructor
  · rintro ⟨l,decoded,verified⟩
    obtain ⟨-,rest,rfl⟩ := decodeInt16_iff.mp decoded
    rw [verifiedPart_eq (by simp only [lengthOfRecoverBlockLength]; omega)] at verified
    simp only [Except.ok.injEq,Option.ite_none_right_eq_some] at verified
    obtain ⟨⟨small,inside⟩,checked⟩ := verified
    have dropped : (encodeInt16 l ++ rest).drop lengthOfRecoverBlockLength = rest := by
      simp [encodeInt16,lengthOfRecoverBlockLength]
    rw [dropped,verifyFormatBlobChecksum_iff] at checked
    have enough : l < rest.length := by simpa [encodeInt16,lengthOfRecoverBlockLength] using inside
    have length : (g ++ hmac.sum g).length = l := by
      rw [← checked,List.length_take]
      omega
    refine ⟨by omega,rest.drop l,by simpa using enough,?_⟩
    rw [length,← checked,List.append_assoc,List.take_append_drop]
  · rintro ⟨small,rest,more,rfl⟩
    have follows : 0 < rest.length := List.length_pos_iff.mpr more
    generalize checksummed : g ++ hmac.sum g = bytes at small ⊢
    refine ⟨bytes.length,decodeInt16_iff.mpr ⟨by simp only [maxChecksummedFormatBytesLength] at small; omega,bytes ++ rest,by simp⟩,?_⟩
    rw [verifiedPart_eq (by simp only [lengthOfRecoverBlockLength]; omega)]
    have inside : bytes.length + lengthOfRecoverBlockLength < (encodeInt16 bytes.length ++ bytes ++ rest).length := by
      simp [encodeInt16,lengthOfRecoverBlockLength]
      omega
    have cut : (((encodeInt16 bytes.length ++ bytes ++ rest).drop lengthOfRecoverBlockLength).take bytes.length) = bytes := by
      simp [encodeInt16,lengthOfRecoverBlockLength]
    rw [if_pos ⟨small,inside⟩,cut,verifyFormatBlobChecksum_iff.mpr checksummed.symm]

/-- The last two bytes of a chunk, which hold the length. -/
theorem part_last {chunk : Bytes} (two : 2 ≤ chunk.length) :
    part chunk (chunk.length - lengthOfRecoverBlockLength) lengthOfRecoverBlockLength = .ok (chunk.drop (chunk.length - 2)) := by
  rw [part_inside (by simp only [lengthOfRecoverBlockLength]; omega)]
  congr 1
  exact List.take_of_length_le (by simp only [lengthOfRecoverBlockLength,List.length_drop]; omega)

theorem suffixPart_total {chunk : Bytes} (two : 2 ≤ chunk.length) : ∃ r, suffixPart hmac chunk = .ok r := by
  obtain ⟨l,decoded⟩ := decodeInt16_total (b := chunk.drop (chunk.length - 2)) (by rw [List.length_drop]; omega)
  rw [suffixPart,part_last two,ok_bind,decoded,ok_bind,verifiedPart_eq (by simp only [lengthOfRecoverBlockLength]; omega)]
  exact ⟨_,rfl⟩

theorem suffixPart_of_EndsWith {chunk g : Bytes} (ends : EndsWith hmac chunk g) : suffixPart hmac chunk = .ok (some g) := by
  obtain ⟨small,before,more,rfl⟩ := ends
  have precedes : 0 < before.length := List.length_pos_iff.mpr more
  generalize checksummed : g ++ hmac.sum g = bytes at small ⊢
  have total : (before ++ bytes ++ encodeInt16 bytes.length).length = before.length + bytes.length + 2 := by
    simp only [encodeInt16,List.length_append,List.length_cons,List.length_nil]
  have tail : (before ++ bytes ++ encodeInt16 bytes.length).drop ((before ++ bytes ++ encodeInt16 bytes.length).length - 2) =
      encodeInt16 bytes.length := by
    rw [total]
    exact List.drop_left' (by simp)
  have decoded : decodeInt16 (encodeInt16 bytes.length) = .ok bytes.length :=
    decodeInt16_iff.mpr ⟨by simp only [maxChecksummedFormatBytesLength] at small; omega,[],by simp⟩
  have start : (before ++ bytes ++ encodeInt16 bytes.length).length - lengthOfRecoverBlockLength - bytes.length = before.length := by
    simp only [total,lengthOfRecoverBlockLength]
    omega
  have cut : ((before ++ bytes ++ encodeInt16 bytes.length).drop before.length).take bytes.length = bytes := by
    rw [List.append_assoc,List.drop_left,List.take_left]
  rw [suffixPart,part_last (by omega),ok_bind,tail,decoded,ok_bind,start,verifiedPart_eq (by omega),
    if_pos ⟨small,by simp only [total,lengthOfRecoverBlockLength]; omega⟩,cut,verifyFormatBlobChecksum_iff.mpr checksummed.symm]

/-- The blob holds the file, and no other blob has its name as a prefix. -/
structure Holds (st : Storage) (blobID file : Bytes) : Prop where
  named : blobID ≠ []
  ranges : ∀ off len : Nat, 0 < len → off + len ≤ file.length → st.GetBlob blobID off len = .ok ((file.drop off).take len)
  listed : st.ListBlobs blobID = ([⟨blobID,file.length⟩],.ok ())

/-- A range that is read has the length that was asked for. -/
def Exact (st : Storage) : Prop :=
  ∀ blobID off len data, st.GetBlob blobID off len = .ok data → (data.length : Int) = len

theorem RecoverFormatBlob_length {st : Storage} {blobID file : Bytes} {optionalLength : Int} (holds : Holds st blobID file)
    (given : optionalLength = file.length ∨ optionalLength ≤ 0) :
    RecoverFormatBlob hmac st blobID optionalLength = recoverFormatBlobWithLength hmac st blobID file.length := by
  by_cases known : optionalLength > 0
  · have same : optionalLength = file.length := by omega
    rw [RecoverFormatBlob,if_pos known,same]
  · have only : theOnlyBlob st blobID = .ok (some ⟨blobID,file.length⟩) := by
      rw [theOnlyBlob,holds.listed]
      simp only [foundOnly,holds.named,if_false,ok_bind]
      rfl
    rw [RecoverFormatBlob,if_neg known,only,wrapped,ok_bind]

/-- The window into the file that one chunk is. -/
def window (file : Bytes) : Nat := min 65536 file.length

theorem chunkLengthOf_length (file : Bytes) : chunkLengthOf file.length = window file := by
  simp only [chunkLengthOf,maxRecoverChunkLength,window]
  omega

/-- The prefix decides first. -/
theorem recover_of_BeginsWith {st : Storage} {blobID file g : Bytes} (holds : Holds st blobID file)
    (begins : BeginsWith hmac (file.take (window file)) g) :
    recoverFormatBlobWithLength hmac st blobID file.length = .ok g := by
  have checksummed : formatBlobChecksumSize ≤ (g ++ hmac.sum g).length := by simp [hmac.size]
  have long : 4 < window file := by
    obtain ⟨-,rest,-,chunk⟩ := begins
    have length := congrArg List.length chunk
    simp only [List.length_take,List.length_append,encodeInt16,List.length_cons,formatBlobChecksumSize] at length checksummed
    omega
  have bound : window file ≤ file.length := by simp [window]
  have read := holds.ranges 0 (window file) (by omega) (by omega)
  rw [recoverFormatBlobWithLength,chunkLengthOf_length,if_neg (by simp only [minRecoverableChunkLength,lengthOfRecoverBlockLength]; omega)]
  simp only [Nat.cast_zero,List.drop_zero] at read
  rw [read]
  simp only [wrapped,ok_bind,prefixPart_iff.mpr begins]

theorem recover_of_EndsWith {st : Storage} {blobID file g : Bytes} (holds : Holds st blobID file)
    (other : ∀ c, ¬BeginsWith hmac (file.take (window file)) c) (ends : EndsWith hmac (file.drop (file.length - window file)) g) :
    recoverFormatBlobWithLength hmac st blobID file.length = .ok g := by
  have checksummed : formatBlobChecksumSize ≤ (g ++ hmac.sum g).length := by simp [hmac.size]
  have bound : window file ≤ file.length := by simp [window]
  have long : 4 < window file := by
    obtain ⟨-,before,-,chunk⟩ := ends
    have length := congrArg List.length chunk
    simp only [List.length_drop,List.length_append,encodeInt16,List.length_cons,formatBlobChecksumSize] at length checksummed
    omega
  have read := holds.ranges 0 (window file) (by omega) (by omega)
  have readSuffix := holds.ranges (file.length - window file) (window file) (by omega) (by omega)
  have rest : (file.drop (file.length - window file)).take (window file) = file.drop (file.length - window file) :=
    List.take_of_length_le (by rw [List.length_drop]; omega)
  obtain ⟨r,total⟩ := @prefixPart_total hmac (file.take (window file)) (by rw [List.length_take]; omega)
  have missing : prefixPart hmac (file.take (window file)) = .ok none := by
    cases r with
    | none => exact total
    | some c => exact absurd (prefixPart_iff.mp total) (other c)
  rw [recoverFormatBlobWithLength,chunkLengthOf_length,if_neg (by simp only [minRecoverableChunkLength,lengthOfRecoverBlockLength]; omega)]
  simp only [Nat.cast_zero,List.drop_zero] at read
  rw [Int.ofNat_sub bound,rest] at readSuffix
  rw [read,readSuffix]
  simp only [wrapped,ok_bind,missing,suffixPart_of_EndsWith ends]

theorem recover_never_panics {st : Storage} (exactly : Exact st) (blobID : Bytes) (length : Int) :
    recoverFormatBlobWithLength hmac st blobID length ≠ .error .panicked := by
  by_cases short : chunkLengthOf length ≤ minRecoverableChunkLength
  · rw [recoverFormatBlobWithLength,if_pos short]
    simp
  · rw [recoverFormatBlobWithLength,if_neg short]
    have long : 4 < chunkLengthOf length := by
      simp only [minRecoverableChunkLength,lengthOfRecoverBlockLength] at short
      omega
    cases read : st.GetBlob blobID 0 (chunkLengthOf length) with
    | error e => simp [wrapped,Bind.bind,Except.bind]
    | ok prefixChunk =>
      have size := exactly _ _ _ _ read
      obtain ⟨r,decided⟩ := @prefixPart_total hmac prefixChunk (by omega)
      simp only [wrapped,ok_bind,decided]
      cases r with
      | some b => simp
      | none =>
        cases readSuffix : st.GetBlob blobID (length - chunkLengthOf length) (chunkLengthOf length) with
        | error e => simp [Bind.bind,Except.bind]
        | ok suffixChunk =>
          have sizeSuffix := exactly _ _ _ _ readSuffix
          obtain ⟨r,decided⟩ := @suffixPart_total hmac suffixChunk (by omega)
          simp only [ok_bind,decided]
          cases r with
          | some b => simp
          | none => simp

theorem RecoverFormatBlob_never_panics {st : Storage} (exactly : Exact st) (blobID : Bytes) (optionalLength : Int) :
    RecoverFormatBlob hmac st blobID optionalLength ≠ .error .panicked := by
  by_cases known : optionalLength > 0
  · rw [RecoverFormatBlob,if_pos known]
    exact recover_never_panics exactly blobID optionalLength
  · rw [RecoverFormatBlob,if_neg known]
    cases theOnlyBlob st blobID with
    | error e => simp [wrapped,Bind.bind,Except.bind]
    | ok foundMetadata =>
      simp only [wrapped,ok_bind]
      cases foundMetadata with
      | none => simp
      | some bm => exact recover_never_panics exactly bm.BlobID bm.Length

/-- Checksummed bytes between two copies of their length. -/
def replica (checksummed : Bytes) : Bytes :=
  encodeInt16 checksummed.length ++ checksummed ++ encodeInt16 checksummed.length

@[simp] theorem length_replica (checksummed : Bytes) : (replica checksummed).length = checksummed.length + 4 := by
  simp only [replica,encodeInt16,List.length_append,List.length_cons,List.length_nil]
  omega

theorem take_replica (checksummed x : Bytes) {n : Nat} (wide : checksummed.length + 4 ≤ n) :
    ∃ rest, rest ≠ [] ∧ (replica checksummed ++ x).take n = encodeInt16 checksummed.length ++ checksummed ++ rest := by
  have front : (encodeInt16 checksummed.length ++ checksummed).length = checksummed.length + 2 := by
    simp only [encodeInt16,List.length_append,List.length_cons,List.length_nil]
    omega
  refine ⟨(encodeInt16 checksummed.length ++ x).take (n - (checksummed.length + 2)),?_,?_⟩
  · rw [← List.length_pos_iff,List.length_take,List.length_append]
    simp only [encodeInt16,List.length_cons,List.length_nil]
    omega
  · rw [replica,List.append_assoc,List.take_append,front,List.take_of_length_le (by omega)]

theorem drop_replica (checksummed x : Bytes) {n : Nat} (wide : checksummed.length + 4 ≤ n) :
    ∃ before, before ≠ [] ∧
      (x ++ replica checksummed).drop ((x ++ replica checksummed).length - n) = before ++ checksummed ++ encodeInt16 checksummed.length := by
  have front : (x ++ encodeInt16 checksummed.length).length = x.length + 2 := by
    simp only [encodeInt16,List.length_append,List.length_cons,List.length_nil]
  have split : x ++ replica checksummed = x ++ encodeInt16 checksummed.length ++ (checksummed ++ encodeInt16 checksummed.length) := by
    simp [replica]
  have total : (x ++ replica checksummed).length = x.length + (checksummed.length + 4) := by simp
  refine ⟨(x ++ encodeInt16 checksummed.length).drop ((x ++ replica checksummed).length - n),?_,?_⟩
  · rw [← List.length_pos_iff,List.length_drop]
    omega
  · rw [total,split,List.drop_append_of_le_length (by omega),List.append_assoc _ checksummed]

theorem window_wide {checksummed file : Bytes} (small : checksummed.length ≤ maxChecksummedFormatBytesLength)
    (inside : checksummed.length + 4 ≤ file.length) : checksummed.length + 4 ≤ window file := by
  simp only [maxChecksummedFormatBytesLength] at small
  simp only [window]
  omega

theorem addFormatBlobChecksumAndLength_small {f : Bytes} (small : (f ++ hmac.sum f).length ≤ maxChecksummedFormatBytesLength) :
    addFormatBlobChecksumAndLength hmac f = .ok (replica (f ++ hmac.sum f)) := by
  rw [addFormatBlobChecksumAndLength]
  exact if_neg (by omega)

/-- A storage of one blob, which answers the ranges inside it. -/
def oneBlob (blobID file : Bytes) : Storage where
  GetBlob id off len :=
    if id = blobID ∧ 0 ≤ off ∧ 0 < len ∧ off + len ≤ file.length then .ok ((file.drop off.toNat).take len.toNat)
    else .error (.storage "invalid range")
  ListBlobs given := (if given.isPrefixOf blobID then [⟨blobID,file.length⟩] else [],.ok ())

theorem oneBlob_holds {blobID : Bytes} (named : blobID ≠ []) (file : Bytes) : Holds (oneBlob blobID file) blobID file where
  named := named
  ranges off len positive inside := by
    have within : (off : Int) + len ≤ file.length := by exact_mod_cast inside
    simp [oneBlob,positive,within]
  listed := by simp [oneBlob]

theorem oneBlob_exact (blobID file : Bytes) : Exact (oneBlob blobID file) := by
  intro id off len data read
  simp only [oneBlob] at read
  split at read
  next inside =>
    cases read
    simp only [List.length_take,List.length_drop]
    omega
  next => contradiction

/-- A replica is found at the beginning of a file always, and at its end unless the file begins with
some checksummed content, which is then returned. No blob of any storage makes the search panic. -/
theorem RecoverFormatBlob_replica (hmac : Checksum) (f : Bytes)
    (small : (f ++ hmac.sum f).length ≤ maxChecksummedFormatBytesLength) :
    ∃ blob, addFormatBlobChecksumAndLength hmac f = .ok blob ∧
      ∀ (st : Storage) (blobID : Bytes) (optionalLength : Int),
        (∀ x, Holds st blobID (blob ++ x) → (optionalLength = (blob ++ x).length ∨ optionalLength ≤ 0) →
          RecoverFormatBlob hmac st blobID optionalLength = .ok f) ∧
        (∀ x, Holds st blobID (x ++ blob) → (optionalLength = (x ++ blob).length ∨ optionalLength ≤ 0) →
          (∀ g, BeginsWith hmac ((x ++ blob).take (window (x ++ blob))) g →
            RecoverFormatBlob hmac st blobID optionalLength = .ok g) ∧
          ((∀ g, ¬BeginsWith hmac ((x ++ blob).take (window (x ++ blob))) g) →
            RecoverFormatBlob hmac st blobID optionalLength = .ok f)) ∧
        (Exact st → RecoverFormatBlob hmac st blobID optionalLength ≠ .error .panicked) := by
  refine ⟨_,addFormatBlobChecksumAndLength_small small,fun st blobID optionalLength => ⟨?atBeginning,?atEnd,?never⟩⟩
  case atBeginning =>
    intro x holds given
    rw [RecoverFormatBlob_length holds given]
    have wide := @window_wide _ (replica (f ++ hmac.sum f) ++ x) small (by simp)
    exact recover_of_BeginsWith holds ⟨small,take_replica _ x wide⟩
  case atEnd =>
    intro x holds given
    rw [RecoverFormatBlob_length holds given]
    have wide := @window_wide _ (x ++ replica (f ++ hmac.sum f)) small (by simp)
    exact ⟨fun g begins => recover_of_BeginsWith holds begins,
      fun other => recover_of_EndsWith holds other ⟨small,drop_replica _ x wide⟩⟩
  case never =>
    intro exactly
    exact RecoverFormatBlob_never_panics exactly blobID optionalLength

/-- With the replica of another content before it, the replica at the end is not found, whatever the checksum. -/
theorem RecoverFormatBlob_other_replica :
    ¬∃ hmac : Checksum, ∀ f blob x st blobID optionalLength, addFormatBlobChecksumAndLength hmac f = .ok blob →
      Holds st blobID (x ++ blob) → (optionalLength = (x ++ blob).length ∨ optionalLength ≤ 0) →
      RecoverFormatBlob hmac st blobID optionalLength = .ok f := by
  rintro ⟨hmac,always⟩
  let x := replica ([0] ++ hmac.sum [0])
  have small (b : UInt8) : ([b] ++ hmac.sum [b]).length ≤ maxChecksummedFormatBytesLength := by
    simp [hmac.size,formatBlobChecksumSize,maxChecksummedFormatBytesLength]
  have holds := @oneBlob_holds [98] (by simp) (x ++ replica ([1] ++ hmac.sum [1]))
  have found := always [1] _ x _ _ 0 (addFormatBlobChecksumAndLength_small (small 1)) holds (.inr (by simp))
  rw [RecoverFormatBlob_length holds (.inr (by simp)),
    recover_of_BeginsWith holds ⟨small 0,take_replica _ _ (window_wide (small 0) (by simp [x]))⟩] at found
  simp at found

/-- A checksum that is never different. -/
def zeros : Checksum := ⟨fun _ => List.replicate 32 0,by simp [formatBlobChecksumSize]⟩

theorem RecoverFormatBlob_replica_zeros :
    RecoverFormatBlob zeros (oneBlob [98] (replica ([7] ++ zeros.sum [7]) ++ [1])) [98] 0 = .ok [7] ∧
      RecoverFormatBlob zeros (oneBlob [98] ([1] ++ replica ([7] ++ zeros.sum [7]))) [98] 38 = .ok [7] ∧
      RecoverFormatBlob zeros (oneBlob [98] [1,2,3]) [98] 5 ≠ .error .panicked := by
  have small : ([7] ++ zeros.sum [7]).length ≤ maxChecksummedFormatBytesLength := by decide
  obtain ⟨blob,added,all⟩ := RecoverFormatBlob_replica zeros [7] small
  obtain rfl : replica ([7] ++ zeros.sum [7]) = blob :=
    Except.ok.inj ((addFormatBlobChecksumAndLength_small small).symm.trans added)
  have absent : prefixPart zeros (([1] ++ replica ([7] ++ zeros.sum [7])).take
      (window ([1] ++ replica ([7] ++ zeros.sum [7])))) = .ok none := by decide
  refine ⟨(all _ _ _).1 [1] (oneBlob_holds (by simp) _) (.inr (by simp)),
    ((all _ _ _).2.1 [1] (oneBlob_holds (by simp) _) (.inl (by decide))).2 ?_,(all _ _ _).2.2 (oneBlob_exact _ _)⟩
  intro g begins
  rw [prefixPart_iff.mpr begins] at absent
  simp at absent

end Vbe.Format.Replicas
