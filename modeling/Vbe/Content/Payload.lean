import Vbe.Content.Sequential

/-! The bytes behind the entries. Every entry points to a slice, of the pack it is in
or of a stored pack, that decrypts and decompresses to the data its identifier stands
for, and every section keeps this. -/
namespace Vbe.Content
open Vbe.Index WriteManager

section Codecs

/-- The bytes that `Encrypt` adds, a nonce and a tag. -/
def encryptionOverhead : Nat := 28

/-- What is relied on from encryption and compression: each undoes the other
direction, whatever the nonce, and encryption adds little. -/
structure Codec.Lawful (codec : Codec) : Prop where
  decrypt_encrypt : ∀ nonce iv data, codec.decrypt iv (codec.encrypt nonce iv data) = some data
  encrypt_length : ∀ nonce iv data, (codec.encrypt nonce iv data).length ≤ data.length + encryptionOverhead
  decompress_compress : ∀ id c, codec.byHeaderID id = some c → ∀ data tmp, c.compress data = some tmp →
    c.decompress tmp = some data

variable {codec : Codec}

/-- What is packed is never much longer than the data, and unpacks to it under an
entry that names the compression used. -/
theorem Codec.Lawful.unpack (lawful : codec.Lawful) {data : Bytes} {c : ID} {comp actualComp : UInt32}
    {mp : MutableParameters} {nonce packed : Bytes}
    (done : codec.maybeCompressAndEncryptDataForPacking data c comp mp nonce = some (actualComp,packed)) :
    packed.length ≤ data.length + encryptionOverhead ∧
    ∀ x : Info, x.contentID = c → x.encryptionKeyID = 0 → x.compressionHeaderID = actualComp →
      codec.decryptContentAndVerify packed x = some data := by
  have plain (same : (NoCompression,codec.encrypt nonce (getPackedContentIV c) data) = (actualComp,packed)) :
      packed.length ≤ data.length + encryptionOverhead ∧
      ∀ x : Info, x.contentID = c → x.encryptionKeyID = 0 → x.compressionHeaderID = actualComp →
        codec.decryptContentAndVerify packed x = some data := by
    simp only [Prod.mk.injEq] at same
    obtain ⟨rfl,rfl⟩ := same
    refine ⟨lawful.encrypt_length _ _ _,fun x own key header => ?_⟩
    simp [Codec.decryptContentAndVerify,key,header,own,NoCompression,lawful.decrypt_encrypt]
  unfold Codec.maybeCompressAndEncryptDataForPacking at done
  dsimp only at done
  generalize (if c.HasPrefix = true ∧ comp = NoCompression ∧ mp.indexVersion ≥ 2 then HeaderZstdFastest else comp) =
    chosen at done
  split at done
  next compressing =>
    split at done
    · contradiction
    · split at done
      · contradiction
      next compressor known =>
        split at done
        · contradiction
        next tmp compressed =>
          split at done
          · exact plain (Option.some.inj done)
          next shorter =>
            cases Option.some.inj done
            refine ⟨(lawful.encrypt_length _ _ _).trans (by omega),fun x own key header => ?_⟩
            have other : ¬actualComp = 0 := compressing
            simp [Codec.decryptContentAndVerify,key,header,own,other,lawful.decrypt_encrypt,known,
              lawful.decompress_compress _ _ known _ _ compressed]
  next => exact plain (Option.some.inj done)

end Codecs

/-- The largest pack size that a repository format may set. -/
def maxValidPackSize : Nat := 120 * 2 ^ 20

section Holding
variable (codec : Codec) (dataOf : ID → Bytes)

/-- The slice that an entry names holds the data of its content. -/
def Holds (bytes : Bytes) (x : Info) : Prop :=
  ∃ payload, Library.Bytes.slice bytes x.packOffset.toNat x.packedLength.toNat = some payload ∧
    codec.decryptContentAndVerify payload x = some (dataOf x.contentID)

/-- The stored pack of an entry holds its data. -/
def StoredIn (blobs : BlobID → Option Bytes) (x : Info) : Prop :=
  ∃ bytes, blobs x.packBlobID = some bytes ∧ Holds codec dataOf bytes x

/-- Entries of the pack itself are held by its data, all others by stored packs. -/
structure PackHolds (blobs : BlobID → Option Bytes) (pp : PendingPackInfo) : Prop where
  own : ∀ c x, pp.currentPackItems.get? c = some x → x.packBlobID = pp.packBlobID → Holds codec dataOf pp.currentPackData x
  foreign : ∀ c x, pp.currentPackItems.get? c = some x → x.packBlobID ≠ pp.packBlobID → StoredIn codec dataOf blobs x

/-- All entries are held by what they point to, the packs that are not being written
have not been stored, and the pending ones are not full. -/
structure Payloads (bm : WriteManager) : Prop where
  packs : ∀ pp ∈ bm.packs, PackHolds codec dataOf bm.blobs pp
  built : ∀ c x, bm.packIndexBuilder.get? c = some x → StoredIn codec dataOf bm.blobs x
  committed : ∀ b ∈ bm.committed, ∀ c x, b.get? c = some x → StoredIn codec dataOf bm.blobs x
  unstored : ∀ pp ∈ bm.pendingPacks ++ bm.failedPacks, bm.blobs pp.packBlobID = none
  short : ∀ pp ∈ bm.pendingPacks, pp.currentPackData.length < maxValidPackSize

variable {codec dataOf} {bytes : Bytes} {blobs blobs' : BlobID → Option Bytes} {pp pp' : PendingPackInfo} {x : Info}

theorem Holds.append (holds : Holds codec dataOf bytes x) (after : Bytes) : Holds codec dataOf (bytes ++ after) x := by
  obtain ⟨payload,found,decrypted⟩ := holds
  exact ⟨payload,Library.Bytes.slice_append found after,decrypted⟩

/-- Deleting a content does not touch what its entry points to. -/
theorem StoredIn.deleted (stored : StoredIn codec dataOf blobs x) (time : Int) :
    StoredIn codec dataOf blobs (deletedInfo x time) := stored

theorem StoredIn.stored (stored : StoredIn codec dataOf blobs x) (as : StoredAs blobs pp blobs')
    (unstored : blobs pp.packBlobID = none) : StoredIn codec dataOf blobs' x := by
  obtain ⟨bytes,there,holds⟩ := stored
  refine ⟨bytes,?_,holds⟩
  rw [as.other,there]
  intro same
  simp [same,unstored] at there

theorem PackHolds.stored (holds : PackHolds codec dataOf blobs pp) {qq : PendingPackInfo} (as : StoredAs blobs qq blobs')
    (unstored : blobs qq.packBlobID = none) : PackHolds codec dataOf blobs' pp :=
  ⟨holds.own,fun c x found other => (holds.foreign c x found other).stored as unstored⟩

/-- Preparing a pack adds data, or drops data that no entry points to. -/
theorem PackHolds.prepared (holds : PackHolds codec dataOf blobs pp) (prepared : PreparedFrom pp pp') :
    PackHolds codec dataOf blobs pp' := by
  refine ⟨fun c x found own => ?_,fun c x found other => ?_⟩
  · rw [prepared.items] at found
    rw [prepared.name] at own
    rcases prepared.data with ⟨_,foreign⟩ | ⟨suffix,longer⟩
    · exact absurd own (foreign c x found)
    · exact longer ▸ (holds.own c x found own).append suffix
  · rw [prepared.items] at found
    rw [prepared.name] at other
    exact holds.foreign c x found other

/-- Once a pack is stored its entries are held by stored packs. -/
theorem PackHolds.index (holds : PackHolds codec dataOf blobs pp) (prepared : PreparedFrom pp pp')
    (as : StoredAs blobs pp' blobs') (unstored : blobs pp.packBlobID = none)
    (data : ∀ c i, pp.currentPackItems.get? c = some i → i.packBlobID = pp.packBlobID → pp.currentPackData ≠ [])
    {c : ID} (found : pp.currentPackItems.get? c = some x) : StoredIn codec dataOf blobs' x := by
  by_cases own : x.packBlobID = pp.packBlobID
  · rcases as with ⟨empty,_⟩ | updated
    · exact absurd empty (prepared.data_ne found own (data c x found own))
    · refine ⟨pp'.currentPackData,?_,(holds.prepared prepared).own c x (prepared.items ▸ found)
        (own.trans prepared.name.symm)⟩
      rw [updated,own,← prepared.name]
      simp
  · exact (holds.foreign c x found own).stored as (prepared.name.symm ▸ unstored)

/-- An entry of the index being built comes from the index before or from the pack. -/
theorem WriteManager.Indexed.from {before after : Builder} {pp : PendingPackInfo} (indexed : Indexed before pp after)
    {c : ID} {x : Info} (found : after.get? c = some x) :
    before.get? c = some x ∨ pp.currentPackItems.get? c = some x := by
  rw [indexed c] at found
  cases entry : pp.currentPackItems.get? c with
  | none =>
    rw [entry] at found
    exact Or.inl found
  | some i =>
    rw [entry] at found
    rcases winner_cases (before.get? c) i with new | old
    · exact Or.inr (new ▸ found)
    · exact Or.inl (old.trans found)

end Holding

section Locking
variable {codec : Codec} {dataOf : ID → Bytes} {env : Env} {bm bm' : WriteManager}

/-- Storing and indexing a pack that leaves memory. -/
theorem Payloads.settle (payloads : Payloads codec dataOf bm) (backed : bm.Backed) {pp pp' : PendingPackInfo}
    (member : pp ∈ bm.packs) (unstored : bm.blobs pp.packBlobID = none) (prepared : PreparedFrom pp pp')
    {blobs : BlobID → Option Bytes} (as : StoredAs bm.blobs pp' blobs) {built : Builder}
    (indexed : Indexed bm.packIndexBuilder pp built) {pending writing failed : List PendingPackInfo}
    (fewer : ∀ qq ∈ pending ++ writing ++ failed, qq ∈ bm.packs)
    (rest : ∀ qq ∈ pending ++ failed, qq ∈ bm.pendingPacks ++ bm.failedPacks ∧ qq.packBlobID ≠ pp.packBlobID)
    (sub : ∀ qq ∈ pending, qq ∈ bm.pendingPacks) : Payloads codec dataOf {bm with
      pendingPacks := pending
      writingPacks := writing
      failedPacks := failed
      packIndexBuilder := built
      blobs := blobs} := by
  have absent : bm.blobs pp'.packBlobID = none := prepared.name.symm ▸ unstored
  refine ⟨fun qq there => (payloads.packs qq (fewer qq there)).stored as absent,fun c x found => ?_,
    fun b there c x found => (payloads.committed b there c x found).stored as absent,fun qq there => ?_,
    fun qq there => payloads.short qq (sub qq there)⟩
  · rcases indexed.from found with old | new
    · exact (payloads.built c x old).stored as absent
    · exact (payloads.packs pp member).index prepared as unstored (backed.data pp member) new
  · obtain ⟨old,other⟩ := rest qq there
    exact (as.other (prepared.name.symm ▸ other)).trans (payloads.unstored qq old)

/-- A pack that could not be stored stays in memory as it was prepared. -/
theorem Payloads.refuse (payloads : Payloads codec dataOf bm) {pp pp' : PendingPackInfo}
    (member : pp ∈ bm.packs) (unstored : bm.blobs pp.packBlobID = none) (prepared : PreparedFrom pp pp')
    {pending writing failed : List PendingPackInfo} (fewer : ∀ qq ∈ pending ++ writing ++ failed, qq ∈ bm.packs)
    (rest : ∀ qq ∈ pending ++ failed, qq ∈ bm.pendingPacks ++ bm.failedPacks)
    (sub : ∀ qq ∈ pending, qq ∈ bm.pendingPacks) : Payloads codec dataOf {bm with
      pendingPacks := pending
      writingPacks := writing
      failedPacks := failed ++ [pp']} := by
  refine ⟨fun qq there => ?_,payloads.built,payloads.committed,fun qq there => ?_,
    fun qq there => payloads.short qq (sub qq there)⟩
  · have either : qq ∈ pending ++ writing ++ failed ∨ qq = pp' := by
      simpa [WriteManager.packs,or_assoc] using there
    rcases either with old | rfl
    · exact payloads.packs qq (fewer qq old)
    · exact (payloads.packs pp member).prepared prepared
  · have either : qq ∈ pending ++ failed ∨ qq = pp' := by simpa [or_assoc] using there
    rcases either with old | rfl
    · exact payloads.unstored qq (rest qq old)
    · exact prepared.name.symm ▸ unstored

theorem Payloads.locked (payloads : Payloads codec dataOf bm) (wf : bm.WellFormed) (backed : bm.Backed)
    (locked : Locked env bm bm') : Payloads codec dataOf bm' := by
  cases locked with
  | retried pp member =>
    have inside : pp ∈ bm.packs := List.mem_append.mpr (Or.inr member)
    have unstored := payloads.unstored pp (by simp [member])
    obtain ⟨before,after,split⟩ := List.append_of_mem member
    have names := wf.names_failed
    rw [split] at names
    have fewer : ∀ qq ∈ bm.pendingPacks ++ bm.writingPacks ++ (before ++ after), qq ∈ bm.packs := by
      intro qq there
      simp only [WriteManager.packs,split,List.mem_append,List.mem_cons] at there ⊢
      tauto
    have rest : ∀ qq ∈ bm.pendingPacks ++ (before ++ after), qq ∈ bm.pendingPacks ++ bm.failedPacks := by
      intro qq there
      simp only [split,List.mem_append,List.mem_cons] at there ⊢
      tauto
    rcases retried_spec env wf split with ⟨blobs,built,pp',prepared,as,indexed,done⟩ | ⟨pp',prepared,_,done⟩ <;> rw [done]
    · refine payloads.settle backed inside unstored prepared as indexed fewer (fun qq there => ⟨rest qq there,?_⟩)
        fun _ => id
      rcases List.mem_append.mp there with first | last
      · exact ((wf.apart_of_pending first).2 pp member).symm
      · exact names_apart names qq last
    · exact payloads.refuse inside unstored prepared fewer rest fun _ => id
  | finished pp member =>
    have inside : pp ∈ bm.packs := List.mem_append.mpr (Or.inl (List.mem_append.mpr (Or.inl member)))
    have unstored := payloads.unstored pp (by simp [member])
    obtain ⟨before,after,split⟩ := List.append_of_mem member
    have names := wf.names_pending
    rw [split] at names
    have fewer : ∀ qq ∈ before ++ after ++ bm.writingPacks ++ bm.failedPacks, qq ∈ bm.packs := by
      intro qq there
      simp only [WriteManager.packs,split,List.mem_append,List.mem_cons] at there ⊢
      tauto
    have sub : ∀ qq ∈ before ++ after, qq ∈ bm.pendingPacks := by
      intro qq there
      simp only [split,List.mem_append,List.mem_cons] at there ⊢
      tauto
    have rest : ∀ qq ∈ before ++ after ++ bm.failedPacks, qq ∈ bm.pendingPacks ++ bm.failedPacks := by
      intro qq there
      exact List.mem_append.mpr ((List.mem_append.mp there).imp (sub qq) id)
    rcases finished_spec env wf split with ⟨blobs,built,pp',prepared,as,indexed,done⟩ | ⟨pp',prepared,_,done⟩ <;> rw [done]
    · refine payloads.settle backed inside unstored prepared as indexed fewer (fun qq there => ⟨rest qq there,?_⟩) sub
      rcases List.mem_append.mp there with first | last
      · exact names_apart names qq first
      · exact (wf.apart_of_pending member).2 qq last
    · exact payloads.refuse inside unstored prepared fewer rest sub
  | committed =>
    refine ⟨payloads.packs,fun c x found => by simp at found,fun b there c x found => ?_,payloads.unstored,
      payloads.short⟩
    rcases List.mem_append.mp there with old | new
    · exact payloads.committed b old c x found
    · exact payloads.built c x (List.mem_singleton.mp new ▸ found)
  | flags => exact ⟨payloads.packs,payloads.built,payloads.committed,payloads.unstored,payloads.short⟩

theorem Payloads.lockedSteps (payloads : Payloads codec dataOf bm) (wf : bm.WellFormed) (backed : bm.Backed)
    (steps : LockedSteps env bm bm') : Payloads codec dataOf bm' := by
  induction steps with
  | refl => exact payloads
  | tail steps locked ih => exact ih.locked (LockedSteps.wellFormed steps wf) (LockedSteps.backed steps wf backed) locked

end Locking

section Publishing
variable {codec : Codec} {dataOf : ID → Bytes} {env : Env} {bm bm1 bm' : WriteManager} {pp pp' : PendingPackInfo}

/-- Asking for a pending pack gives one that is there, or a new one. -/
theorem getOrCreatePendingPackInfo_cases {packPrefix : BlobID}
    (done : bm.getOrCreatePendingPackInfo env packPrefix = some (bm1,pp)) :
    bm1 = bm ∨ pp = newPack env packPrefix ∧ bm1 = {bm with pendingPacks := bm.pendingPacks ++ [pp]} := by
  unfold getOrCreatePendingPackInfo at done
  split at done
  · cases Option.some.inj done
    exact Or.inl rfl
  · split at done
    · cases Option.some.inj done
      exact Or.inr ⟨rfl,rfl⟩
    · contradiction

theorem Payloads.provided (payloads : Payloads codec dataOf bm) (fresh : FreshNames env bm) {c : ID}
    (done : bm.getOrCreatePendingPackInfo env (packPrefixForContentID c) = some (bm1,pp)) :
    Payloads codec dataOf bm1 := by
  rcases getOrCreatePendingPackInfo_cases done with same | ⟨new,same⟩
  · exact same ▸ payloads
  · have empty : ∀ d, pp.currentPackItems.get? d = none := by simp [new,newPack]
    subst same
    refine ⟨fun qq there => ?_,payloads.built,payloads.committed,fun qq there => ?_,fun qq there => ?_⟩
    · by_cases last : qq = pp
      · subst last
        exact ⟨fun d x found => by simp [empty] at found,fun d x found => by simp [empty] at found⟩
      · refine payloads.packs qq ?_
        simp only [WriteManager.packs,List.mem_append,List.mem_singleton] at there ⊢
        tauto
    · by_cases last : qq = pp
      · rw [last,new]
        exact fresh.unstored _ (packPrefixForContentID_mem c)
      · refine payloads.unstored qq ?_
        simp only [List.mem_append,List.mem_singleton] at there ⊢
        tauto
    · rcases List.mem_append.mp there with old | last
      · exact payloads.short qq old
      · have bound := fresh.preamble.2
        rw [List.mem_singleton.mp last,new]
        simp only [newPack,maxValidPackSize,defaultMaxPreambleLength] at bound ⊢
        omega

/-- Changing a pending pack to one that holds its entries. -/
theorem Payloads.updated (payloads : Payloads codec dataOf bm) (wf : bm.WellFormed) (member : pp ∈ bm.pendingPacks)
    (name : pp'.packBlobID = pp.packBlobID) (holds : PackHolds codec dataOf bm.blobs pp')
    (short : pp'.currentPackData.length < maxValidPackSize) : Payloads codec dataOf (bm.updatePending pp') := by
  obtain ⟨before,after,split⟩ := List.append_of_mem member
  rw [updatePending_split wf split name]
  refine ⟨fun qq there => ?_,payloads.built,payloads.committed,fun qq there => ?_,fun qq there => ?_⟩
  · by_cases same : qq = pp'
    · exact same ▸ holds
    · refine payloads.packs qq ?_
      simp only [WriteManager.packs,split,List.mem_append,List.mem_cons] at there ⊢
      tauto
  · by_cases same : qq = pp'
    · rw [same,name]
      exact payloads.unstored pp (by simp [split])
    · refine payloads.unstored qq ?_
      simp only [split,List.mem_append,List.mem_cons] at there ⊢
      tauto
  · by_cases same : qq = pp'
    · exact same ▸ short
    · refine payloads.short qq ?_
      simp only [split,List.mem_append,List.mem_cons] at there ⊢
      tauto

/-- The entry that is entered for packed bytes points to them. -/
theorem holds_newInfo (lawful : codec.Lawful) {a : Addition} {actualComp : UInt32} {packed : Bytes}
    (encrypted : codec.maybeCompressAndEncryptDataForPacking a.data a.contentID a.comp a.mp env.nonce =
      some (actualComp,packed)) (known : a.data = dataOf a.contentID) (small : a.data.length < 2 ^ 28)
    (short : pp.currentPackData.length < maxValidPackSize) :
    Holds codec dataOf (pp.currentPackData ++ packed) (newInfo env pp a actualComp packed) := by
  obtain ⟨bound,unpack⟩ := lawful.unpack encrypted
  simp only [encryptionOverhead,maxValidPackSize] at bound short
  have off : (UInt32.ofNat pp.currentPackData.length).toNat = pp.currentPackData.length := by
    rw [UInt32.toNat_ofNat']
    omega
  have len : (UInt32.ofNat (pp.currentPackData ++ packed).length - UInt32.ofNat pp.currentPackData.length).toNat =
      packed.length := by
    rw [UInt32.toNat_sub,UInt32.toNat_ofNat',UInt32.toNat_ofNat',List.length_append]
    omega
  refine ⟨packed,?_,?_⟩
  · simp only [newInfo,off,len]
    simpa using Library.Bytes.slice_middle pp.currentPackData packed []
  · exact (unpack (newInfo env pp a actualComp packed) rfl rfl rfl).trans (congrArg some known)

theorem PackHolds.append {blobs : BlobID → Option Bytes} (holds : PackHolds codec dataOf blobs pp) {x : Info}
    {packed : Bytes} (own : x.packBlobID = pp.packBlobID) (held : Holds codec dataOf (pp.currentPackData ++ packed) x) :
    PackHolds codec dataOf blobs (appendContent pp x packed) := by
  refine ⟨fun c y found mine => ?_,fun c y found other => ?_⟩
  · rw [show (appendContent pp x packed).currentPackItems = pp.currentPackItems.set x from rfl,Builder.get?_set] at found
    split at found
    · exact Option.some.inj found ▸ held
    · exact (holds.own c y found mine).append packed
  · rw [show (appendContent pp x packed).currentPackItems = pp.currentPackItems.set x from rfl,Builder.get?_set] at found
    split at found
    · exact absurd (Option.some.inj found ▸ own) other
    · exact holds.foreign c y found other

/-- A pending pack goes to those being written, with entries that it holds. -/
theorem Payloads.moved (payloads : Payloads codec dataOf bm) {before after : List PendingPackInfo}
    (split : bm.pendingPacks = before ++ pp :: after) (holds : PackHolds codec dataOf bm.blobs pp') :
    Payloads codec dataOf {bm with pendingPacks := before ++ after, writingPacks := bm.writingPacks ++ [pp']} := by
  have sub : ∀ qq ∈ before ++ after, qq ∈ bm.pendingPacks := by
    intro qq there
    simp only [split,List.mem_append,List.mem_cons] at there ⊢
    tauto
  refine ⟨fun qq there => ?_,payloads.built,payloads.committed,fun qq there => payloads.unstored qq ?_,
    fun qq there => payloads.short qq (sub qq there)⟩
  · by_cases same : qq = pp'
    · exact same ▸ holds
    · refine payloads.packs qq ?_
      simp only [WriteManager.packs,split,List.mem_append,List.mem_cons,List.not_mem_nil] at there ⊢
      tauto
  · exact List.mem_append.mpr ((List.mem_append.mp there).imp (sub qq) id)

/-- Publishing an addition of known data. A pack that is full is one more pack being
written, and has not been stored. -/
theorem Payloads.inserted (payloads : Payloads codec dataOf bm) (wf : bm.WellFormed) (fresh : FreshNames env bm)
    (lawful : codec.Lawful) {a : Addition} {actualComp : UInt32} {packed : Bytes} {x : Info}
    (encrypted : codec.maybeCompressAndEncryptDataForPacking a.data a.contentID a.comp a.mp env.nonce =
      some (actualComp,packed)) (known : a.data = dataOf a.contentID) (small : a.data.length < 2 ^ 28)
    (valid : a.mp.maxPackSize ≤ maxValidPackSize) (inserted : Inserted env bm a actualComp packed x bm') :
    Payloads codec dataOf bm' ∧ ∀ pp ∈ bm'.writingPacks, pp ∈ bm.writingPacks ∨ bm'.blobs pp.packBlobID = none := by
  have held {bm1 : WriteManager} {pp : PendingPackInfo} (payloads : Payloads codec dataOf bm1)
      (member : pp ∈ bm1.pendingPacks) :
      PackHolds codec dataOf bm1.blobs (appendContent pp (newInfo env pp a actualComp packed) packed) :=
    (payloads.packs pp (List.mem_append.mpr (Or.inl (List.mem_append.mpr (Or.inl member))))).append rfl
      (holds_newInfo lawful encrypted known small (payloads.short pp member))
  cases inserted with
  | kept bm1 pp asked new short =>
    have provided := getOrCreatePendingPackInfo_spec wf fresh a.contentID asked
    have payloads := payloads.provided fresh asked
    subst new
    refine ⟨payloads.updated provided.wellFormed provided.member rfl (held payloads provided.member)
      (lt_of_lt_of_le short valid),fun qq there => ?_⟩
    rw [provided.rest] at there
    exact Or.inl there
  | moved bm1 pp asked new =>
    have provided := getOrCreatePendingPackInfo_spec wf fresh a.contentID asked
    have payloads := payloads.provided fresh asked
    obtain ⟨before,after,split⟩ := List.append_of_mem provided.member
    subst new
    have holds := held payloads provided.member
    have updated : bm1.updatePending (appendContent pp (newInfo env pp a actualComp packed) packed) = withPending bm1
        (before ++ appendContent pp (newInfo env pp a actualComp packed) packed :: after) :=
      updatePending_split provided.wellFormed split rfl
    have started : (withPending bm1 (before ++ appendContent pp (newInfo env pp a actualComp packed) packed :: after)).startWriting
        (appendContent pp (newInfo env pp a actualComp packed) packed) = {bm1 with
          pendingPacks := before ++ after
          writingPacks := bm1.writingPacks ++ [appendContent pp (newInfo env pp a actualComp packed) packed]} := by
      have names := provided.wellFormed.names_pending
      rw [split] at names
      have renamed : ((before ++ appendContent pp (newInfo env pp a actualComp packed) packed :: after).map
          PendingPackInfo.packBlobID).Nodup := by simpa [appendContent] using names
      simp only [WriteManager.startWriting,withPending,removePendingPack_split renamed rfl]
    rw [updated]
    rw [started]
    refine ⟨payloads.moved split holds,fun qq there => ?_⟩
    rcases List.mem_append.mp there with old | new
    · rw [provided.rest] at old
      exact Or.inl old
    · refine Or.inr ?_
      rw [List.mem_singleton.mp new]
      exact payloads.unstored pp (List.mem_append.mpr (Or.inl provided.member))

/-- Entering a deletion for an entry that a stored pack holds. -/
theorem Payloads.deletePreexisting (payloads : Payloads codec dataOf bm) (wf : bm.WellFormed) (fresh : FreshNames env bm)
    {y : Info} (stored : StoredIn codec dataOf bm.blobs y) :
    Payloads codec dataOf (bm.deletePreexistingContent env y).1 := by
  unfold deletePreexistingContent
  split
  · exact payloads
  · split
    · exact payloads
    next bm1 pp asked =>
      have provided := getOrCreatePendingPackInfo_spec wf fresh y.contentID asked
      have payloads := payloads.provided fresh asked
      have member := provided.member
      have blobs : bm1.blobs = bm.blobs := by
        rw [provided.rest]
        rfl
      have inside : pp ∈ bm1.packs := List.mem_append.mpr (Or.inl (List.mem_append.mpr (Or.inl member)))
      refine payloads.updated provided.wellFormed member rfl ⟨fun c x found own => ?_,fun c x found other => ?_⟩
        (payloads.short pp member)
      · dsimp only at found own ⊢
        rw [Builder.get?_set] at found
        split at found
        · obtain ⟨bytes,there,_⟩ := stored
          have absent := payloads.unstored pp (List.mem_append.mpr (Or.inl member))
          rw [← own,← Option.some.inj found,blobs] at absent
          exact absurd absent (by simp [deletedInfo,there])
        · exact (payloads.packs pp inside).own c x found own
      · dsimp only at found other
        rw [Builder.get?_set] at found
        split at found
        · exact Option.some.inj found ▸ blobs ▸ stored.deleted _
        · exact (payloads.packs pp inside).foreign c x found other

theorem Payloads.deleteContent (payloads : Payloads codec dataOf bm) (wf : bm.WellFormed) (fresh : FreshNames env bm)
    (idle : bm.writingPacks = []) (c : ID) : Payloads codec dataOf (bm.DeleteContent env c).1 := by
  unfold DeleteContent
  split
  next pp x found =>
    obtain ⟨member,_⟩ := findLiveInPacks_some found
    have inside : pp ∈ bm.packs := List.mem_append.mpr (Or.inl (List.mem_append.mpr (Or.inl member)))
    have kept : ∀ d y, (pp.currentPackItems.erase c).get? d = some y → pp.currentPackItems.get? d = some y := by
      intro d y there
      rw [Builder.get?_erase] at there
      split at there
      · contradiction
      · exact there
    exact payloads.updated wf member rfl ⟨fun d y there => (payloads.packs pp inside).own d y (kept d y there),
      fun d y there => (payloads.packs pp inside).foreign d y (kept d y there)⟩ (payloads.short pp member)
  next =>
    rw [idle]
    simp only [findLiveInPacks,List.findSome?_nil]
    split
    next y built => exact payloads.deletePreexisting wf fresh (payloads.built c y built)
    next =>
      split
      · exact payloads
      next y shown =>
        rw [getContent_eq] at shown
        obtain ⟨b,member,entry⟩ := mergedInfo_mem (Option.filter_eq_some_iff.mp shown).1
        exact payloads.deletePreexisting wf fresh (payloads.committed b member c y entry)

end Publishing

end Vbe.Content
