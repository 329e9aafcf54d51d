import Vbe.Content.Payload

/-! Contents can be read back, wherever their entries have been moved: in every state
that calls made one after another reach, with any uploads refused and any refreshes
in between, a content that is found has the data that was written. -/
namespace Vbe.Content
open Vbe.Index WriteManager Vbe.Library.Runs

section Sections
variable {codec : Codec} {dataOf : ID → Bytes} {env : Env} {bm bm' : WriteManager}
  {before after : List PendingPackInfo} {pp pp' : PendingPackInfo}

/-- A pack being written has been uploaded, or not yet. -/
theorem Payloads.uploaded (payloads : Payloads codec dataOf bm) (wf : bm.WellFormed)
    (split : bm.writingPacks = before ++ pp :: after) (prepared : PreparedFrom pp pp')
    {blobs : BlobID → Option Bytes}
    (outcome : StoredAs bm.blobs pp' blobs ∧ bm.blobs pp.packBlobID = none ∨ blobs = bm.blobs) :
    Payloads codec dataOf (withUploaded bm (before ++ pp' :: after) blobs) := by
  have member : pp ∈ bm.writingPacks := by simp [split]
  have inside : pp ∈ bm.packs := List.mem_append.mpr (Or.inl (List.mem_append.mpr (Or.inr member)))
  have keeps {x : Info} (stored : StoredIn codec dataOf bm.blobs x) : StoredIn codec dataOf blobs x := by
    rcases outcome with ⟨as,absent⟩ | same
    · exact stored.stored as (prepared.name.symm ▸ absent)
    · exact same ▸ stored
  have holds {qq : PendingPackInfo} (holds : PackHolds codec dataOf bm.blobs qq) : PackHolds codec dataOf blobs qq :=
    ⟨holds.own,fun c x found other => keeps (holds.foreign c x found other)⟩
  refine ⟨fun qq there => ?_,fun c x found => keeps (payloads.built c x found),
    fun b there c x found => keeps (payloads.committed b there c x found),fun qq there => ?_,payloads.short⟩
  · by_cases same : qq = pp'
    · rw [same]
      exact holds ((payloads.packs pp inside).prepared prepared)
    · refine holds (payloads.packs qq ?_)
      simp only [WriteManager.packs,withUploaded,split,List.mem_append,List.mem_cons] at there ⊢
      tauto
  · have absent := payloads.unstored qq there
    rcases outcome with ⟨as,_⟩ | same
    · refine (as.other ?_).trans absent
      rw [prepared.name]
      rcases List.mem_append.mp there with pending | failed
      · exact ((wf.apart_of_pending pending).1 pp member).symm
      · exact WellFormed.failed_apart wf member qq failed
    · exact same ▸ absent

/-- The entries of an uploaded pack go to the index being built. -/
theorem Payloads.indexed (payloads : Payloads codec dataOf bm) (split : bm.writingPacks = before ++ pp :: after)
    (stored : bm.blobs pp.packBlobID = some pp.currentPackData) {built : Builder}
    (indexed : Indexed bm.packIndexBuilder pp built) :
    Payloads codec dataOf (withProcessed bm (before ++ after) bm.failedPacks built) := by
  have inside : pp ∈ bm.packs := by simp [WriteManager.packs,split]
  refine ⟨fun qq there => payloads.packs qq ?_,fun c x found => ?_,payloads.committed,payloads.unstored,payloads.short⟩
  · simp only [WriteManager.packs,withProcessed,split,List.mem_append,List.mem_cons] at there ⊢
    tauto
  · rcases indexed.from found with old | new
    · exact payloads.built c x old
    · by_cases own : x.packBlobID = pp.packBlobID
      · exact ⟨_,own.symm ▸ stored,(payloads.packs pp inside).own c x new own⟩
      · exact (payloads.packs pp inside).foreign c x new own

/-- A pack that was refused goes to the failed ones. -/
theorem Payloads.notStored (payloads : Payloads codec dataOf bm) (split : bm.writingPacks = before ++ pp :: after)
    (absent : bm.blobs pp.packBlobID = none) :
    Payloads codec dataOf (withProcessed bm (before ++ after) (bm.failedPacks ++ [pp]) bm.packIndexBuilder) := by
  refine payloads.refuse (by simp [WriteManager.packs,split]) absent (PreparedFrom.same pp) ?_ (fun _ => id) (fun _ => id)
  intro qq there
  simp only [WriteManager.packs,split,List.mem_append,List.mem_cons] at there ⊢
  tauto

/-- Reading a content that is found gives the data its identifier stands for. -/
theorem Payloads.read (payloads : Payloads codec dataOf bm) {c : ID} {bi : Info} (found : bm.ContentInfo c = some bi) :
    bm.getContentDataAndInfo codec c = some (dataOf c,bi) := by
  have answer {pp : Option PendingPackInfo} (there : bm.getContentInfo c = some (pp,bi)) (own : bi.contentID = c)
      (reads : ∃ payload, bm.readPayload pp bi = some payload ∧
        codec.decryptContentAndVerify payload bi = some (dataOf bi.contentID)) :
      bm.getContentDataAndInfo codec c = some (dataOf c,bi) := by
    obtain ⟨payload,payload_eq,decrypted⟩ := reads
    simp [getContentDataAndInfo,there,payload_eq,decrypted,own]
  have fromBlob (stored : StoredIn codec dataOf bm.blobs bi) : ∃ payload, bm.readPayload none bi = some payload ∧
      codec.decryptContentAndVerify payload bi = some (dataOf bi.contentID) := by
    obtain ⟨bytes,there,payload,slice,decrypted⟩ := stored
    exact ⟨payload,by simp [readPayload,there,slice],decrypted⟩
  have fromPack {pp : PendingPackInfo} (member : pp ∈ bm.packs) (entry : pp.currentPackItems.get? c = some bi) :
      ∃ payload, bm.readPayload (some pp) bi = some payload ∧
        codec.decryptContentAndVerify payload bi = some (dataOf bi.contentID) := by
    by_cases own : bi.packBlobID = pp.packBlobID
    · obtain ⟨payload,slice,decrypted⟩ := (payloads.packs pp member).own c bi entry own
      exact ⟨payload,by simp [readPayload,own,slice],decrypted⟩
    · obtain ⟨bytes,there,payload,slice,decrypted⟩ := (payloads.packs pp member).foreign c bi entry own
      exact ⟨payload,by simp [readPayload,Ne.symm own,there,slice],decrypted⟩
  have inPacks {packs : List PendingPackInfo} {pp : PendingPackInfo} {x : Info} (first : findInPacks packs c = some (pp,x)) :
      pp ∈ packs ∧ pp.currentPackItems.get? c = some x := by
    obtain ⟨qq,member,entry⟩ := List.exists_of_findSome?_eq_some first
    obtain ⟨y,there,same⟩ := Option.map_eq_some_iff.mp entry
    simp only [Prod.mk.injEq] at same
    exact ⟨same.1 ▸ member,same.1 ▸ same.2 ▸ there⟩
  obtain ⟨⟨pp,i⟩,there,same⟩ := Option.map_eq_some_iff.mp found
  dsimp only at same
  subst same
  have cases' := there
  unfold getContentInfo getOverlayContentInfo at cases'
  cases pending : findInPacks bm.pendingPacks c with
  | some first =>
    obtain ⟨qq,x⟩ := first
    simp only [pending,Option.some.injEq,Prod.mk.injEq] at cases'
    obtain ⟨rfl,rfl⟩ := cases'
    obtain ⟨member,entry⟩ := inPacks pending
    exact answer there (Builder.get?_contentID entry)
      (fromPack (List.mem_append.mpr (Or.inl (List.mem_append.mpr (Or.inl member)))) entry)
  | none =>
    cases writing : findInPacks bm.writingPacks c with
    | some first =>
      obtain ⟨qq,x⟩ := first
      simp only [pending,writing,Option.some.injEq,Prod.mk.injEq] at cases'
      obtain ⟨rfl,rfl⟩ := cases'
      obtain ⟨member,entry⟩ := inPacks writing
      exact answer there (Builder.get?_contentID entry)
        (fromPack (List.mem_append.mpr (Or.inl (List.mem_append.mpr (Or.inr member)))) entry)
    | none =>
      cases built : bm.packIndexBuilder.get? c with
      | some x =>
        simp only [pending,writing,built,Option.map_some,Option.some.injEq,Prod.mk.injEq] at cases'
        obtain ⟨rfl,rfl⟩ := cases'
        exact answer there (Builder.get?_contentID built) (fromBlob (payloads.built c x built))
      | none =>
        cases shown : bm.getContent c with
        | none => simp [pending,writing,built,shown] at cases'
        | some x =>
          simp only [pending,writing,built,shown,Option.map_none,Option.map_some,Option.some.injEq,Prod.mk.injEq] at cases'
          obtain ⟨rfl,rfl⟩ := cases'
          rw [getContent_eq] at shown
          obtain ⟨b,member,entry⟩ := mergedInfo_mem (Option.filter_eq_some_iff.mp shown).1
          exact answer there (Builder.get?_contentID entry) (fromBlob (payloads.committed b member c x entry))

/-- The pack being written is in storage once its upload has been accepted, and not
before. -/
def Place.Settled (bm : WriteManager) : Place → Prop
  | .processResult _ _ true => ∀ pp ∈ bm.writingPacks, bm.blobs pp.packBlobID = some pp.currentPackData
  | _ => ∀ pp ∈ bm.writingPacks, bm.blobs pp.packBlobID = none

variable {t : Thread} {place : Place}

theorem Effect.payloads (effect : Effect codec env bm t bm' place) (wf : bm.WellFormed) (possible : env.Possible bm)
    (aligned : t.place.Aligned bm.writingPacks) (backed : bm.Backed) (lawful : codec.Lawful)
    (small : ∀ c, (dataOf c).length < 2 ^ 28)
    (known : ∀ a, t.place.addition = some a → a.data = dataOf a.contentID ∧ a.mp.maxPackSize ≤ maxValidPackSize)
    (settled : t.place.Settled bm) (payloads : Payloads codec dataOf bm) : Payloads codec dataOf bm' := by
  have publishing {a : Addition} {bm1 : WriteManager} {x : Info}
      (standing : t.place = .publish a ∧ lostRace bm a = false ∨ t.place = .publishWait a)
      (steps : LockedSteps env bm bm1) (entry : EntryFor codec env bm1 a x bm') : Payloads codec dataOf bm' := by
    have addition : t.place.addition = some a := by
      rcases standing with ⟨here,_⟩ | here <;> rw [here] <;> rfl
    obtain ⟨same,valid⟩ := known a addition
    obtain ⟨actualComp,packed,inserted,encrypted⟩ := entry.inserted
    exact ((payloads.lockedSteps wf backed steps).inserted (steps.wellFormed wf)
      ((FreshNames.of_possible possible).later wf steps) lawful encrypted same (same ▸ small a.contentID) valid inserted).1
  cases effect with
  | failed bm' steps => exact payloads.lockedSteps wf backed steps
  | retried bm' d steps => exact payloads.lockedSteps wf backed steps
  | flushWaits next bm' _ steps => exact payloads.lockedSteps wf backed steps
  | flushed next bm1 bm' _ _ first second =>
    exact payloads.lockedSteps wf backed (Relation.ReflTransGen.trans first second)
  | published a bm1 bm' x standing steps _ _ entry => exact publishing standing steps entry
  | publishedFull a bm1 bm' x pp standing steps _ _ entry => exact publishing standing steps entry
  | uploaded d before pp after pp' blobs stored here split prepared outcome =>
    refine payloads.uploaded wf split prepared ?_
    simp only [Place.Settled,here] at settled
    exact outcome.imp (fun accepted => ⟨accepted.2,settled pp (by simp [split])⟩) fun refused => refused.2.2
  | indexed d before pp after built here split indexed =>
    simp only [Place.Settled,here] at settled
    exact payloads.indexed split (settled pp (by simp [split])) indexed
  | notStored d before pp after here split =>
    simp only [Place.Settled,here] at settled
    exact payloads.notStored split (settled pp (by simp [split]))
  | deleted d bm' ok _ here done =>
    have idle : bm.writingPacks = [] := by simpa only [Place.Aligned,here] using aligned
    have deleted := payloads.deleteContent wf (FreshNames.of_possible possible) idle d
    rw [done] at deleted
    exact deleted
  | _ => exact payloads

theorem Place.Settled.of_aligned (aligned : place.Aligned bm.writingPacks)
    (apart : (∀ c name, place ≠ .upload c name) ∧ ∀ c name stored, place ≠ .processResult c name stored) :
    place.Settled bm := by
  have idle : bm.writingPacks = [] := by cases place <;> simp_all [Place.Aligned]
  cases place with
  | processResult c name stored => exact absurd rfl (apart.2 c name stored)
  | _ => simp [Place.Settled,idle]

theorem Effect.settled (effect : Effect codec env bm t bm' place) (wf : bm.WellFormed) (possible : env.Possible bm)
    (aligned : t.place.Aligned bm.writingPacks) (backed : bm.Backed) (occupied : ∀ pp ∈ bm.writingPacks, Occupied pp)
    (lawful : codec.Lawful) (small : ∀ c, (dataOf c).length < 2 ^ 28)
    (known : ∀ a, t.place.addition = some a → a.data = dataOf a.contentID ∧ a.mp.maxPackSize ≤ maxValidPackSize)
    (payloads : Payloads codec dataOf bm) (settled : t.place.Settled bm) : place.Settled bm' := by
  have later := effect.aligned wf possible aligned
  cases effect with
  | publishedFull a bm1 bm' x pp standing steps _ _ entry published writing =>
    have addition : t.place.addition = some a := by
      rcases standing with ⟨here,_⟩ | here <;> rw [here] <;> rfl
    have idle : bm.writingPacks = [] := by
      refine aligned.of_fallible ?_
      rcases standing with ⟨here,_⟩ | here <;> rw [here] <;> rfl
    obtain ⟨same,valid⟩ := known a addition
    obtain ⟨actualComp,packed,inserted,encrypted⟩ := entry.inserted
    have fresh := ((payloads.lockedSteps wf backed steps).inserted (steps.wellFormed wf)
      ((FreshNames.of_possible possible).later wf steps) lawful encrypted same (same ▸ small a.contentID) valid inserted).2
    intro qq there
    rcases fresh qq there with old | absent
    · rw [(steps.surroundings wf).writing,idle] at old
      contradiction
    · exact absent
  | uploaded d before pp after pp' blobs stored here split prepared outcome =>
    have member : pp ∈ bm.writingPacks := by simp [split]
    simp only [Place.Aligned,here] at aligned
    obtain ⟨qq,alone,_⟩ := aligned
    obtain ⟨rfl,rfl,rfl⟩ := alone_of_split alone split
    simp only [Place.Settled,here] at settled
    rcases outcome with ⟨rfl,as⟩ | ⟨rfl,_,rfl⟩
    · intro qq there
      rw [List.mem_singleton.mp there]
      obtain ⟨e,i,entry,own⟩ := occupied pp member
      have inside : pp ∈ bm.packs := List.mem_append.mpr (Or.inl (List.mem_append.mpr (Or.inr member)))
      have data := prepared.data_ne entry own (backed.data pp inside e i entry own)
      rcases as with ⟨empty,_⟩ | updated
      · exact absurd empty data
      · simp [withUploaded,updated]
    · intro qq there
      rw [List.mem_singleton.mp there,prepared.name]
      exact settled pp member
  | flushed next bm1 bm' => cases next <;> exact Place.Settled.of_aligned later (by simp [Place.afterFlush])
  | _ => exact Place.Settled.of_aligned later (by simp)

end Sections

section Runs
variable {codec : Codec} {dataOf : ID → Bytes}

/-- The data of a write is what its identifier stands for, which on the data of a run
says that the hash has no collisions, and pack sizes are valid. -/
def Call.Admissible (codec : Codec) (dataOf : ID → Bytes) : Call → Prop
  | .WriteContent data idPrefix _ mp =>
    (∀ c, IDFromHash idPrefix (codec.hashData data) = .ok c → dataOf c = data) ∧ mp.maxPackSize ≤ maxValidPackSize
  | .RewriteContent _ mp => mp.maxPackSize ≤ maxValidPackSize
  | .UndeleteContent _ mp => mp.maxPackSize ≤ maxValidPackSize
  | _ => True

/-- A refresh loads indexes whose entries are held by stored packs, and no blob under
the name of a pack in memory. -/
def Refreshed.Sound (codec : Codec) (dataOf : ID → Bytes) (bm : WriteManager) (loaded : Refreshed) : Prop :=
  (∀ b ∈ loaded.committed, ∀ c x, b.get? c = some x → StoredIn codec dataOf (bm.refresh loaded).blobs x) ∧
    ∀ pp ∈ bm.packs, loaded.packs.lookup pp.packBlobID = none

/-- Steps of admissible calls made one after another, with sound refreshes. -/
def Orderly (codec : Codec) (dataOf : ID → Bytes) (s : Machine) (l : Label) : Prop :=
  Sequential s l ∧
    match l with
    | .begin call => call.Admissible codec dataOf
    | .run _ _ => True
    | .refresh loaded => loaded.Sound codec dataOf s.bm

structure BytesInvariant (codec : Codec) (dataOf : ID → Bytes) (s : Machine) : Prop where
  consistent : s.Consistent codec
  calm : s.Calm
  stored : s.Stored
  payloads : Payloads codec dataOf s.bm
  settled : ∀ t ∈ s.threads.getLast?, t.place.Settled s.bm
  admissible : ∀ t ∈ s.threads, t.call.Admissible codec dataOf
  known : ∀ t ∈ s.threads, ∀ a, t.place.addition = some a →
    a.data = dataOf a.contentID ∧ a.mp.maxPackSize ≤ maxValidPackSize

theorem Reads.known {bm : WriteManager} {t : Thread} {a : Addition} (reads : Reads codec bm t a) (sound : t.Sound codec)
    (admissible : t.call.Admissible codec dataOf) (payloads : Payloads codec dataOf bm) :
    a.data = dataOf a.contentID ∧ a.mp.maxPackSize ≤ maxValidPackSize := by
  have same {bi : Info} (read : bm.getContentDataAndInfo codec a.contentID = some (a.data,bi)) :
      a.data = dataOf a.contentID := by
    have known := payloads.read (ContentInfo_of_getContentDataAndInfo read)
    rw [read] at known
    simpa using known
  cases reads with
  | written data idPrefix comp mp call here _ data_eq _ mp_eq _ =>
    rw [call] at admissible
    simp only [Thread.Sound,here,call] at sound
    obtain ⟨_,_,_,_,shape,hashed⟩ := Call.writes_cases sound
    cases shape
    exact ⟨data_eq.trans (admissible.1 a.contentID hashed).symm,mp_eq ▸ admissible.2⟩
  | rewritten mp bi call _ read _ mp_eq _ =>
    rw [call] at admissible
    exact ⟨same read,mp_eq ▸ admissible⟩
  | undeleted mp bi call _ read _ _ mp_eq _ =>
    rw [call] at admissible
    exact ⟨same read,mp_eq ▸ admissible⟩

theorem Effect.known {env : Env} {bm bm' : WriteManager} {t : Thread} {place : Place}
    (effect : Effect codec env bm t bm' place) (sound : t.Sound codec) (admissible : t.call.Admissible codec dataOf)
    (payloads : Payloads codec dataOf bm) (known : ∀ a, t.place.addition = some a →
      a.data = dataOf a.contentID ∧ a.mp.maxPackSize ≤ maxValidPackSize) :
    ∀ a, place.addition = some a → a.data = dataOf a.contentID ∧ a.mp.maxPackSize ≤ maxValidPackSize := by
  intro a addition
  cases effect with
  | read b reads =>
    cases Option.some.inj addition
    exact reads.known sound admissible payloads
  | due b here => exact known a (here ▸ addition)
  | notDue b here => exact known a (here ▸ addition)
  | waits b here => exact known a (here ▸ addition)
  | flushWaits next bm' here => exact known a (here ▸ addition)
  | flushed next bm1 bm' standing =>
    cases next with
    | none => contradiction
    | some b => rcases standing with ⟨here,_⟩ | ⟨here,_⟩ <;> exact known a (here ▸ addition)
  | _ => contradiction

theorem StoredIn.refresh {bm : WriteManager} {x : Info} (stored : StoredIn codec dataOf bm.blobs x) (loaded : Refreshed) :
    StoredIn codec dataOf (bm.refresh loaded).blobs x := by
  obtain ⟨bytes,there,holds⟩ := stored
  exact ⟨bytes,by simp [WriteManager.refresh,addBlobs,there],holds⟩

/-- A sound refresh keeps everything readable. -/
theorem BytesInvariant.refresh {s : Machine} {loaded : Refreshed} (holds : BytesInvariant codec dataOf s)
    (sound : loaded.Sound codec dataOf s.bm) : BytesInvariant codec dataOf {s with bm := s.bm.refresh loaded} := by
  have grows {name : BlobID} (there : s.bm.blobs name ≠ none) : (s.bm.refresh loaded).blobs name ≠ none := by
    obtain ⟨bytes,same⟩ := Option.ne_none_iff_exists'.mp there
    simp [WriteManager.refresh,addBlobs,same]
  have kept (pp : PendingPackInfo) (member : pp ∈ s.bm.packs) :
      (s.bm.refresh loaded).blobs pp.packBlobID = s.bm.blobs pp.packBlobID := by
    simp [WriteManager.refresh,addBlobs,sound.2 pp member]
  have wf := holds.consistent.wellFormed
  have backed := holds.stored.backed
  refine ⟨⟨⟨wf.kinds,wf.names,wf.placed,wf.own⟩,holds.consistent.sound,holds.consistent.enabled⟩,holds.calm,
    ⟨⟨backed.pending,fun c i found live => grows (backed.built c i found live),fun b member c i found live => ?_,
      backed.data⟩,holds.stored.occupied,fun t member c name here => grows (holds.stored.uploaded t member c name here)⟩,
    ⟨fun pp member => ?_,fun c x found => (holds.payloads.built c x found).refresh loaded,sound.1,
      fun pp member => ?_,holds.payloads.short⟩,fun t last => ?_,holds.admissible,holds.known⟩
  · obtain ⟨bytes,there,_⟩ := sound.1 b member c i found
    simp [there]
  · have packHolds := holds.payloads.packs pp member
    exact ⟨packHolds.own,fun c x found other => (packHolds.foreign c x found other).refresh loaded⟩
  · refine (kept pp ?_).trans (holds.payloads.unstored pp member)
    simp only [WriteManager.packs,WriteManager.refresh,List.mem_append] at member ⊢
    tauto
  · have settled := holds.settled t last
    have same : ∀ pp ∈ s.bm.writingPacks, (s.bm.refresh loaded).blobs pp.packBlobID = s.bm.blobs pp.packBlobID :=
      fun pp member => kept pp (List.mem_append.mpr (Or.inl (List.mem_append.mpr (Or.inr member))))
    cases here : t.place with
    | processResult c name stored =>
      rw [here] at settled
      cases stored <;> exact fun pp member => (same pp member).trans (settled pp member)
    | _ =>
      rw [here] at settled
      exact fun pp member => (same pp member).trans (settled pp member)

theorem BytesInvariant.step {s s' : Machine} {l : Label} (lawful : codec.Lawful)
    (small : ∀ c, (dataOf c).length < 2 ^ 28) (holds : BytesInvariant codec dataOf s) (orderly : Orderly codec dataOf s l)
    (taken : s.step codec l = some s') : BytesInvariant codec dataOf s' := by
  have consistent := holds.consistent.step taken
  have calm := holds.calm.step holds.consistent orderly.1 taken
  rcases holds.calm.step_cases orderly.1 taken with
    ⟨call,rfl,idle,rfl⟩ | ⟨done,t,env,bm',place,rfl,threads,finished,aligned,possible,ran,rfl⟩ | ⟨loaded,rfl,rfl⟩
  · have stored := holds.stored.step holds.consistent (by simp) taken
    refine ⟨consistent,calm,stored,holds.payloads,fun t last => ?_,fun t member => ?_,fun t member a addition => ?_⟩
    · have first : call.start = t := by simpa using last
      have empty := holds.calm.writing_of_idle idle
      rw [← first]
      cases call <;> simp [Call.start,Place.Settled,empty]
    · rcases List.mem_append.mp member with old | new
      · exact holds.admissible t old
      · rw [List.mem_singleton.mp new]
        cases call <;> exact orderly.2
    · rcases List.mem_append.mp member with old | new
      · exact holds.known t old a addition
      · rw [List.mem_singleton.mp new] at addition
        cases call <;> contradiction
  · have stored := holds.stored.step holds.consistent (by simp) taken
    have wf := holds.consistent.wellFormed
    have member : t ∈ s.threads := by simp [threads]
    have effect := Thread.run_effect wf possible ran
    have settled := holds.settled t (by simp [threads])
    have known := holds.known t member
    refine ⟨consistent,calm,stored,
      effect.payloads wf possible aligned holds.stored.backed lawful small known settled holds.payloads,
      fun u last => ?_,fun u inside => ?_,fun u inside a addition => ?_⟩
    · have last : ({t with place := place} : Thread) = u := by simpa using last
      rw [← last]
      exact effect.settled wf possible aligned holds.stored.backed holds.stored.occupied lawful small known
        holds.payloads settled
    · rcases List.mem_append.mp inside with old | new
      · exact holds.admissible u (by simp [threads,old])
      · rw [List.mem_singleton.mp new]
        exact holds.admissible t member
    · rcases List.mem_append.mp inside with old | new
      · exact holds.known u (by simp [threads,old]) a addition
      · rw [List.mem_singleton.mp new] at addition
        exact effect.known (holds.consistent.sound t member) (holds.admissible t member) holds.payloads known a addition
  · exact holds.refresh orderly.2

theorem initial_bytes (now : Int) {committed : List Builder} (deletionWatermark : Int) {blobs : BlobID → Option Bytes}
    (sound : ∀ b ∈ committed, ∀ c x, b.get? c = some x → StoredIn codec dataOf blobs x) :
    BytesInvariant codec dataOf (Machine.initial (NewWriteManager now committed deletionWatermark blobs)) := by
  refine ⟨initial_consistent _ _ _ _,initial_calm _ _ _ _,initial_stored _ _ fun b member c i found _ => ?_,
    ⟨?_,?_,sound,?_,?_⟩,?_,?_,?_⟩
  · obtain ⟨bytes,there,_⟩ := sound b member c i found
    simp [there]
  all_goals simp [Machine.initial,NewWriteManager,WriteManager.packs]

theorem plainCodec_lawful : plainCodec.Lawful := by
  refine ⟨fun _ _ _ => rfl,fun _ _ data => ?_,fun id c known => ?_⟩
  · simp [plainCodec]
  · simp [plainCodec] at known

/-- A content is written and flushed. -/
def writeAndFlush : List Label :=
  [.begin (.WriteContent [1] [] NoCompression roomy),.run 0 (clock 10 []),.run 0 (clock 11 []),.run 0 (clock 12 []),
    .run 0 (clock 13 []),.begin .Flush,.run 1 (clock 14 [[112,13]])]

def onlyFirst (c : ID) : Bytes := if c = ⟨0,[1]⟩ then [1] else []

end Runs

end Vbe.Content
