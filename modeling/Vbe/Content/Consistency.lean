import Vbe.Content.Transitions

/-! Where the threads of a machine can stand, and what every step of it keeps:
well-formed packs, live entries that point to stored packs, and threads that work on
the content of their call. -/
namespace Vbe.Content
open Vbe.Index WriteManager Vbe.Library.Runs

section Threads

/-- The additions a call makes. Only `RewriteContent` may add a deleted entry. -/
inductive Call.Adds (codec : Codec) : Call → Addition → Prop
  | written (data : Bytes) (idPrefix : IDPrefix) (comp : UInt32) (mp : MutableParameters) (a : Addition) :
      (Call.WriteContent data idPrefix comp mp).writes codec = some a.contentID → a.data = data →
      a.isDeleted = false → Adds codec (.WriteContent data idPrefix comp mp) a
  | rewritten (mp : MutableParameters) (a : Addition) : Adds codec (.RewriteContent a.contentID mp) a
  | undeleted (mp : MutableParameters) (a : Addition) : a.isDeleted = false →
      Adds codec (.UndeleteContent a.contentID mp) a

/-- The calls that have entered a content once they upload its pack. -/
def Call.Enters (codec : Codec) (call : Call) (c : ID) : Prop := ∃ a, call.Adds codec a ∧ a.contentID = c

/-- A thread stands only where its call can get to. -/
def Thread.Sound (codec : Codec) (t : Thread) : Prop :=
  match t.place with
  | .retryFailed => ∃ data idPrefix comp mp, t.call = .WriteContent data idPrefix comp mp
  | .lookup c => t.call.writes codec = some c
  | .readContent => ∃ c mp, t.call = .RewriteContent c mp ∨ t.call = .UndeleteContent c mp
  | .checkFlush a => t.call.Adds codec a
  | .flush none => t.call = .Flush
  | .flush (some a) => t.call.Adds codec a
  | .flushWait none => t.call = .Flush
  | .flushWait (some a) => t.call.Adds codec a
  | .publish a => t.call.Adds codec a
  | .publishWait a => t.call.Adds codec a
  | .upload c _ => t.call.Enters codec c
  | .processResult c _ _ => t.call.Enters codec c
  | .delete => ∃ c, t.call = .DeleteContent c
  | .returned _ => True

variable {codec : Codec} {env : Env} {bm bm' : WriteManager} {t : Thread} {place : Place}

theorem Call.writes_cases {call : Call} {c : ID} (writes : call.writes codec = some c) :
    ∃ data idPrefix comp mp, call = .WriteContent data idPrefix comp mp ∧
      IDFromHash idPrefix (codec.hashData data) = .ok c := by
  cases call with
  | WriteContent data idPrefix comp mp =>
    refine ⟨data,idPrefix,comp,mp,rfl,?_⟩
    simp only [Call.writes] at writes
    cases hashed : IDFromHash idPrefix (codec.hashData data) with
    | error e => simp [hashed,Except.toOption] at writes
    | ok d =>
      rw [hashed] at writes
      exact congrArg Except.ok (Option.some.inj writes)
  | _ => contradiction

theorem Call.Adds.content_of_writes {call : Call} {a : Addition} (adds : call.Adds codec a) {c : ID}
    (writes : call.writes codec = some c) : a.contentID = c ∧ a.isDeleted = false := by
  cases adds with
  | written data idPrefix comp mp _ own _ live => exact ⟨Option.some.inj (own.symm.trans writes),live⟩
  | rewritten => contradiction
  | undeleted => contradiction

theorem Call.Enters.of_writes {call : Call} {c d : ID} (enters : call.Enters codec c)
    (writes : call.writes codec = some d) : c = d := by
  obtain ⟨a,adds,rfl⟩ := enters
  exact (adds.content_of_writes writes).1

theorem Call.start_sound (call : Call) : call.start.Sound codec := by
  cases call with
  | WriteContent data idPrefix comp mp => exact ⟨data,idPrefix,comp,mp,rfl⟩
  | DeleteContent c => exact ⟨c,rfl⟩
  | RewriteContent c mp => exact ⟨c,mp,Or.inl rfl⟩
  | UndeleteContent c mp => exact ⟨c,mp,Or.inr rfl⟩
  | Flush => exact rfl

theorem Reads.adds {a : Addition} (reads : Reads codec bm t a) (sound : t.Sound codec) : t.call.Adds codec a := by
  cases reads with
  | written data idPrefix comp mp call here _ same live _ _ =>
    simp only [Thread.Sound,here,call] at sound
    rw [call]
    exact .written data idPrefix comp mp a sound same live
  | rewritten mp bi call => exact call ▸ .rewritten mp a
  | undeleted mp bi call _ _ _ live _ _ => exact call ▸ .undeleted mp a live

/-- A step of a thread takes it to a place where its call can get to. -/
theorem Effect.sound (effect : Effect codec env bm t bm' place) (sound : t.Sound codec) :
    ({t with place := place} : Thread).Sound codec := by
  cases effect with
  | retried bm' c _ _ _ writes => exact writes
  | read a reads => exact reads.adds sound
  | due a here => simpa only [Thread.Sound,here] using sound
  | notDue a here => simpa only [Thread.Sound,here] using sound
  | waits a here => simpa only [Thread.Sound,here] using sound
  | flushWaits next bm' here _ _ => cases next <;> simpa only [Thread.Sound,here] using sound
  | flushed next bm1 bm' standing _ _ _ _ =>
    cases next with
    | none => trivial
    | some a => rcases standing with ⟨here,_⟩ | ⟨here,_⟩ <;> simpa only [Thread.Sound,Place.afterFlush,here] using sound
  | publishedFull a bm1 bm' x pp standing _ _ _ _ _ _ _ _ =>
    refine ⟨a,?_,rfl⟩
    rcases standing with ⟨here,_⟩ | here <;> simpa only [Thread.Sound,here] using sound
  | uploaded c _ pp _ _ _ _ here _ _ _ => simpa only [Thread.Sound,here] using sound
  | _ => trivial

end Threads

section Steps
variable {codec : Codec} {s s' : Machine} {l : Label}

/-- A step starts a call, lets a thread take one of its steps, or refreshes the index. -/
theorem Machine.step_cases (taken : s.step codec l = some s') :
    (∃ call, l = .begin call ∧ s' = {s with threads := s.threads ++ [call.start]}) ∨
    (∃ i env t bm' place, l = .run i env ∧ s.threads[i]? = some t ∧ env.Possible s.bm ∧
      t.run codec env s.bm = some (bm',place) ∧ s' = ⟨bm',s.threads.set i {t with place := place},
        acknowledge codec t place s.acknowledged⟩) ∨
    (∃ loaded, l = .refresh loaded ∧ s' = {s with bm := s.bm.refresh loaded}) := by
  cases l with
  | begin call => exact Or.inl ⟨call,rfl,(Option.some.inj taken).symm⟩
  | refresh loaded => exact Or.inr (Or.inr ⟨loaded,rfl,(Option.some.inj taken).symm⟩)
  | run i env =>
    unfold Machine.step at taken
    dsimp only at taken
    split at taken
    · contradiction
    next t there =>
      split at taken
      next possible =>
        split at taken
        · contradiction
        next bm' place ran =>
          exact Or.inr (Or.inl ⟨i,env,t,bm',place,rfl,there,possible,ran,(Option.some.inj taken).symm⟩)
      · contradiction

/-- After a thread's step the others stand where they stood. -/
theorem mem_set_thread {threads : List Thread} {i : Nat} {t u : Thread} (member : u ∈ threads.set i t) :
    u = t ∨ u ∈ threads := (List.mem_or_eq_of_mem_set member).symm

end Steps

section Kept
variable {codec : Codec} {env : Env} {bm bm' : WriteManager} {t : Thread} {place : Place}

/-- A deletion leaves the manager as it is, or drops the pending entry of its content,
or enters a deletion there. -/
theorem DeleteContent_cases (wf : bm.WellFormed) (fresh : FreshNames env bm) {c : ID} {ok : Bool}
    (done : bm.DeleteContent env c = (bm',ok)) : bm' = bm ∨ ∃ x, Republished bm bm' c x := by
  rcases DeleteContent_spec wf fresh c with ⟨bm1,_,shape,_,_,republished⟩ |
    ⟨_,⟨shape,_⟩ | ⟨_,_,⟨shape,_⟩ | ⟨bm1,shape,_,republished⟩⟩⟩
  · cases shape.symm.trans done
    exact Or.inr ⟨_,republished⟩
  · cases shape.symm.trans done
    exact Or.inl rfl
  · cases shape.symm.trans done
    exact Or.inl rfl
  · cases shape.symm.trans done
    exact Or.inr ⟨_,republished⟩

theorem Effect.wellFormed (effect : Effect codec env bm t bm' place) (wf : bm.WellFormed)
    (possible : env.Possible bm) : bm'.WellFormed := by
  cases effect with
  | failed bm' steps => exact steps.wellFormed wf
  | retried bm' c steps => exact steps.wellFormed wf
  | flushWaits next bm' _ steps => exact steps.wellFormed wf
  | flushed next bm1 bm' _ _ first second => exact second.wellFormed (first.wellFormed wf)
  | published a bm1 bm' x _ _ _ _ _ published => exact published.wellFormed
  | publishedFull a bm1 bm' x pp _ _ _ _ _ published => exact published.wellFormed
  | uploaded c before pp after pp' blobs stored _ split prepared => exact uploaded_wellFormed wf split prepared blobs
  | indexed c before pp after built _ split => exact (processed_wellFormed wf split built).1
  | notStored c before pp after _ split => exact (processed_wellFormed wf split bm.packIndexBuilder).2
  | deleted c bm' ok _ _ done =>
    rcases DeleteContent_cases wf (FreshNames.of_possible possible) done with same | ⟨x,republished⟩
    · exact same ▸ wf
    · exact republished.wellFormed
  | _ => exact wf

/-- The settings that no operation changes. -/
theorem Effect.settings (effect : Effect codec env bm t bm' place) (wf : bm.WellFormed) (possible : env.Possible bm) :
    bm'.deletionWatermark = bm.deletionWatermark ∧ bm'.disableIndexFlushCount = bm.disableIndexFlushCount := by
  have locked {bm1 bm2 : WriteManager} (steps : LockedSteps env bm1 bm2) (wf : bm1.WellFormed) :
      bm2.deletionWatermark = bm1.deletionWatermark ∧ bm2.disableIndexFlushCount = bm1.disableIndexFlushCount :=
    ⟨(steps.surroundings wf).deletionWatermark,(steps.surroundings wf).disableIndexFlushCount⟩
  have publishing {bm1 : WriteManager} {x : Info} {moved : Bool} (steps : LockedSteps env bm bm1)
      (published : Published bm1 bm' x moved) :
      bm'.deletionWatermark = bm.deletionWatermark ∧ bm'.disableIndexFlushCount = bm.disableIndexFlushCount := by
    obtain ⟨watermark,count⟩ := locked steps wf
    exact ⟨published.same.deletionWatermark.trans watermark,published.same.disableIndexFlushCount.trans count⟩
  cases effect with
  | failed bm' steps => exact locked steps wf
  | retried bm' c steps => exact locked steps wf
  | flushWaits next bm' _ steps => exact locked steps wf
  | flushed next bm1 bm' _ _ first second => exact locked (first.trans second) wf
  | published a bm1 bm' x _ steps _ _ _ published => exact publishing steps published
  | publishedFull a bm1 bm' x pp _ steps _ _ _ published => exact publishing steps published
  | deleted c bm' ok _ _ done =>
    rcases DeleteContent_cases wf (FreshNames.of_possible possible) done with same | ⟨x,republished⟩
    · rw [same]
      exact ⟨rfl,rfl⟩
    · exact ⟨republished.same.deletionWatermark,republished.same.disableIndexFlushCount⟩
  | _ => exact ⟨rfl,rfl⟩

/-- Pack blobs are only added, since the packs in memory are uploaded under names of
their own. -/
theorem Effect.grows (effect : Effect codec env bm t bm' place) (wf : bm.WellFormed) (possible : env.Possible bm)
    {name : BlobID} (there : bm.blobs name ≠ none) : bm'.blobs name ≠ none := by
  cases effect with
  | failed bm' steps => exact steps.grows wf there
  | retried bm' c steps => exact steps.grows wf there
  | flushWaits next bm' _ steps => exact steps.grows wf there
  | flushed next bm1 bm' _ _ first second => exact second.grows (first.wellFormed wf) (first.grows wf there)
  | published a bm1 bm' x _ steps _ _ _ published => exact published.same.blobs ▸ steps.grows wf there
  | publishedFull a bm1 bm' x pp _ steps _ _ _ published => exact published.same.blobs ▸ steps.grows wf there
  | uploaded c before pp after pp' blobs stored _ _ _ outcome =>
    rcases outcome with ⟨_,as⟩ | ⟨_,_,same⟩
    · exact as.grows there
    · exact same ▸ there
  | deleted c bm' ok _ _ done =>
    rcases DeleteContent_cases wf (FreshNames.of_possible possible) done with same | ⟨x,republished⟩
    · exact same ▸ there
    · exact republished.same.blobs ▸ there
  | _ => exact there

theorem Effect.backed (effect : Effect codec env bm t bm' place) (wf : bm.WellFormed) (possible : env.Possible bm)
    (stored : ∀ c name, t.place = .processResult c name true → bm.blobs name ≠ none) (backed : bm.Backed) :
    bm'.Backed := by
  cases effect with
  | failed bm' steps => exact steps.backed wf backed
  | retried bm' c steps => exact steps.backed wf backed
  | flushWaits next bm' _ steps => exact steps.backed wf backed
  | flushed next bm1 bm' _ _ first second => exact second.backed (first.wellFormed wf) (first.backed wf backed)
  | published a bm1 bm' x _ steps _ _ _ published => exact published.backed (steps.backed wf backed)
  | publishedFull a bm1 bm' x pp _ steps _ _ _ published => exact published.backed (steps.backed wf backed)
  | uploaded c before pp after pp' blobs stored _ split prepared outcome =>
    refine uploaded_backed backed split prepared fun name there => ?_
    rcases outcome with ⟨_,as⟩ | ⟨_,_,same⟩
    · exact as.grows there
    · exact same ▸ there
  | indexed c before pp after built here split indexed =>
    exact (processed_backed backed wf split).1 (stored c _ here) built indexed
  | notStored c before pp after _ split => exact (processed_backed backed wf split).2
  | deleted c bm' ok _ _ done =>
    rcases DeleteContent_cases wf (FreshNames.of_possible possible) done with same | ⟨x,republished⟩
    · exact same ▸ backed
    · exact republished.backed backed
  | _ => exact backed

/-- A pack that is being written has an entry of its own, so it is not empty. -/
def Occupied (pp : PendingPackInfo) : Prop :=
  ∃ c i, pp.currentPackItems.get? c = some i ∧ i.packBlobID = pp.packBlobID

theorem Effect.occupied (effect : Effect codec env bm t bm' place) (wf : bm.WellFormed) (possible : env.Possible bm)
    (occupied : ∀ pp ∈ bm.writingPacks, Occupied pp) : ∀ pp ∈ bm'.writingPacks, Occupied pp := by
  have locked {bm1 : WriteManager} (steps : LockedSteps env bm bm1) : ∀ pp ∈ bm1.writingPacks, Occupied pp :=
    (steps.surroundings wf).writing ▸ occupied
  cases effect with
  | failed bm' steps => exact locked steps
  | retried bm' c steps => exact locked steps
  | flushWaits next bm' _ steps => exact locked steps
  | flushed next bm1 bm' _ _ first second => exact locked (first.trans second)
  | published a bm1 bm' x _ steps _ _ _ _ writing => exact writing ▸ locked steps
  | publishedFull a bm1 bm' x pp _ steps _ _ _ _ writing entry own =>
    intro qq member
    rw [writing] at member
    rcases List.mem_append.mp member with old | new
    · exact locked steps qq old
    · exact List.mem_singleton.mp new ▸ ⟨_,x,entry,own⟩
  | uploaded c before pp after pp' blobs stored _ split prepared _ =>
    intro qq member
    rw [split] at occupied
    rcases List.mem_append.mp member with first | rest
    · exact occupied qq (by simp [first])
    · rcases List.mem_cons.mp rest with rfl | last
      · obtain ⟨d,i,entry,own⟩ := occupied pp (by simp)
        exact ⟨d,i,prepared.items ▸ entry,own.trans prepared.name.symm⟩
      · exact occupied qq (by simp [last])
  | indexed c before pp after built _ split _ =>
    intro qq member
    rw [split] at occupied
    rcases List.mem_append.mp member with first | last
    · exact occupied qq (by simp [first])
    · exact occupied qq (by simp [last])
  | notStored c before pp after _ split =>
    intro qq member
    rw [split] at occupied
    rcases List.mem_append.mp member with first | last
    · exact occupied qq (by simp [first])
    · exact occupied qq (by simp [last])
  | deleted c bm' ok _ _ done =>
    rcases DeleteContent_cases wf (FreshNames.of_possible possible) done with same | ⟨x,republished⟩
    · exact same ▸ occupied
    · exact republished.writing ▸ occupied
  | _ => exact occupied

/-- A pack that counts as stored is in storage, since it has data. -/
theorem Effect.stored (effect : Effect codec env bm t bm' place) (backed : bm.Backed)
    (occupied : ∀ pp ∈ bm.writingPacks, Occupied pp) {c : ID} {name : BlobID}
    (here : place = .processResult c name true) : bm'.blobs name ≠ none := by
  cases effect with
  | uploaded d before pp after pp' blobs stored _ split prepared outcome =>
    simp only [Place.processResult.injEq] at here
    obtain ⟨_,rfl,rfl⟩ := here
    have member : pp ∈ bm.writingPacks := by simp [split]
    obtain ⟨e,i,entry,own⟩ := occupied pp member
    have data := prepared.data_ne entry own (backed.data pp (by simp [packs,member]) e i entry own)
    rcases outcome with ⟨_,⟨empty,_⟩ | updated⟩ | ⟨refused,_⟩
    · exact absurd empty data
    · simp [withUploaded,updated,prepared.name]
    · contradiction
  | flushed next => cases next <;> simp [Place.afterFlush] at here
  | _ => simp at here

end Kept

section Machines
variable {codec : Codec}

/-- What holds in every state of a machine that starts with a new manager. -/
structure Machine.Consistent (codec : Codec) (s : Machine) : Prop where
  wellFormed : s.bm.WellFormed
  sound : ∀ t ∈ s.threads, t.Sound codec
  enabled : s.bm.disableIndexFlushCount = 0

theorem Machine.Consistent.step {s s' : Machine} {l : Label} (consistent : s.Consistent codec)
    (taken : s.step codec l = some s') : s'.Consistent codec := by
  rcases Machine.step_cases taken with ⟨call,_,rfl⟩ | ⟨i,env,t,bm',place,_,there,possible,ran,rfl⟩ | ⟨loaded,_,rfl⟩
  · refine ⟨consistent.wellFormed,fun t member => ?_,consistent.enabled⟩
    rcases List.mem_append.mp member with old | new
    · exact consistent.sound t old
    · exact List.mem_singleton.mp new ▸ call.start_sound
  · have effect := Thread.run_effect consistent.wellFormed possible ran
    refine ⟨effect.wellFormed consistent.wellFormed possible,fun u member => ?_,
      (effect.settings consistent.wellFormed possible).2.trans consistent.enabled⟩
    rcases mem_set_thread member with rfl | old
    · exact effect.sound (consistent.sound t (List.mem_of_getElem? there))
    · exact consistent.sound u old
  · exact ⟨⟨consistent.wellFormed.kinds,consistent.wellFormed.names,consistent.wellFormed.placed,
      consistent.wellFormed.own⟩,consistent.sound,consistent.enabled⟩

theorem initial_consistent (now : Int) (committed : List Builder) (deletionWatermark : Int)
    (blobs : BlobID → Option Bytes) :
    (Machine.initial (NewWriteManager now committed deletionWatermark blobs)).Consistent codec := by
  refine ⟨⟨List.nodup_nil,List.nodup_nil,?_,?_⟩,?_,rfl⟩ <;> simp [Machine.initial,NewWriteManager,packs]

/-- Live entries point to stored packs, and those that threads have uploaded are
stored. -/
structure Machine.Stored (s : Machine) : Prop where
  backed : s.bm.Backed
  occupied : ∀ pp ∈ s.bm.writingPacks, Occupied pp
  uploaded : ∀ t ∈ s.threads, ∀ c name, t.place = .processResult c name true → s.bm.blobs name ≠ none

theorem Machine.Stored.step {s s' : Machine} {l : Label} (stored : s.Stored) (consistent : s.Consistent codec)
    (alone : ∀ loaded, l ≠ .refresh loaded) (taken : s.step codec l = some s') : s'.Stored := by
  rcases Machine.step_cases taken with ⟨call,_,rfl⟩ | ⟨i,env,t,bm',place,_,there,possible,ran,rfl⟩ | ⟨loaded,here,_⟩
  · refine ⟨stored.backed,stored.occupied,fun t member => ?_⟩
    rcases List.mem_append.mp member with old | new
    · exact stored.uploaded t old
    · rw [List.mem_singleton.mp new]
      cases call <;> simp [Call.start]
  · have wf := consistent.wellFormed
    have effect := Thread.run_effect wf possible ran
    refine ⟨effect.backed wf possible (stored.uploaded t (List.mem_of_getElem? there)) stored.backed,
      effect.occupied wf possible stored.occupied,fun u member c name here => ?_⟩
    rcases mem_set_thread member with rfl | old
    · exact effect.stored stored.backed stored.occupied here
    · exact effect.grows wf possible (stored.uploaded u old c name here)
  · exact absurd here (alone loaded)

/-- A new manager whose committed live entries have their packs stored. -/
theorem initial_stored (now : Int) {committed : List Builder} (deletionWatermark : Int)
    {blobs : BlobID → Option Bytes}
    (stored : ∀ b ∈ committed, ∀ c i, b.get? c = some i → i.deleted = false → blobs i.packBlobID ≠ none) :
    (Machine.initial (NewWriteManager now committed deletionWatermark blobs)).Stored := by
  refine ⟨⟨?_,?_,stored,?_⟩,?_,?_⟩ <;> simp [Machine.initial,NewWriteManager,packs]

end Machines

end Vbe.Content
