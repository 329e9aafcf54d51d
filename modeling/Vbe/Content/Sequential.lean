import Vbe.Content.Consistency

/-! Runs in which calls are made one after another. At most the last thread has not
returned, and a pack is being written only while that thread uploads it. -/
namespace Vbe.Content
open Vbe.Index WriteManager Vbe.Library.Runs

section Calm
variable {codec : Codec} {env : Env} {bm bm' : WriteManager} {t : Thread} {place : Place}

def Thread.Finished (t : Thread) : Prop := ∃ ok, t.place = .returned ok

/-- The packs being written when no other thread is at work. -/
def Place.Aligned (writing : List PendingPackInfo) : Place → Prop
  | .upload _ name => ∃ pp, writing = [pp] ∧ pp.packBlobID = name
  | .processResult _ name _ => ∃ pp, writing = [pp] ∧ pp.packBlobID = name
  | _ => writing = []

/-- Only the last thread is at work, if any. -/
def Machine.Calm (s : Machine) : Prop :=
  (s.threads = [] ∧ s.bm.writingPacks = []) ∨
  ∃ done t, s.threads = done ++ [t] ∧ (∀ u ∈ done, u.Finished) ∧ t.place.Aligned s.bm.writingPacks

/-- Nobody is at work. -/
def Machine.Idle (s : Machine) : Prop := ∀ t ∈ s.threads, t.Finished

theorem Place.Aligned.of_finished {writing : List PendingPackInfo} (aligned : t.place.Aligned writing)
    (finished : t.Finished) : writing = [] := by
  obtain ⟨ok,here⟩ := finished
  rw [here] at aligned
  exact aligned

theorem Machine.Calm.writing_of_idle {s : Machine} (calm : s.Calm) (idle : s.Idle) : s.bm.writingPacks = [] := by
  rcases calm with ⟨_,empty⟩ | ⟨done,t,threads,_,aligned⟩
  · exact empty
  · exact aligned.of_finished (idle t (by simp [threads]))

theorem Thread.Finished.stays (finished : t.Finished) : t.run codec env bm = none := by
  obtain ⟨ok,here⟩ := finished
  simp [Thread.run,here]

/-- The only pack that is being written is the one that splits the list. -/
theorem alone_of_split {writing before after : List PendingPackInfo} {pp qq : PendingPackInfo}
    (alone : writing = [pp]) (split : writing = before ++ qq :: after) : before = [] ∧ after = [] ∧ qq = pp := by
  rw [alone] at split
  cases before with
  | nil => simp_all
  | cons p rest => simp at split

/-- Nothing is being written where a step can end with an error of its own. -/
theorem Place.Aligned.of_fallible {writing : List PendingPackInfo} (aligned : place.Aligned writing)
    (fallible : place.fallible = true) : writing = [] := by
  cases place <;> first | exact aligned | contradiction

theorem Effect.aligned (effect : Effect codec env bm t bm' place) (wf : bm.WellFormed) (possible : env.Possible bm)
    (aligned : t.place.Aligned bm.writingPacks) : place.Aligned bm'.writingPacks := by
  have locked {bm1 : WriteManager} (steps : LockedSteps env bm bm1) (fallible : t.place.fallible = true) :
      bm1.writingPacks = [] := (steps.surroundings wf).writing.trans (aligned.of_fallible fallible)
  have idle {here : Place} (standing : t.place = here) (fallible : here.fallible = true) : bm.writingPacks = [] :=
    (standing ▸ aligned).of_fallible fallible
  have publishing {a : Addition} (standing : t.place = .publish a ∧ lostRace bm a = false ∨ t.place = .publishWait a) :
      t.place.fallible = true := by
    rcases standing with ⟨here,_⟩ | here <;> rw [here] <;> rfl
  cases effect with
  | failed bm' steps fallible => exact locked steps fallible
  | retried bm' c steps _ here => exact locked steps (by rw [here]; rfl)
  | present c bi here => exact idle here rfl
  | notDeleted c mp bi _ here => exact idle here rfl
  | read a reads =>
    cases reads with
    | written _ _ _ _ _ here => exact idle here rfl
    | rewritten _ _ _ here => exact idle here rfl
    | undeleted _ _ _ here => exact idle here rfl
  | due a here => exact idle here rfl
  | notDue a here => exact idle here rfl
  | waits a here => exact idle here rfl
  | lost a bi here => exact idle here rfl
  | flushWaits next bm' here steps => exact locked steps (by rw [here]; rfl)
  | flushed next bm1 bm' _ empty first second =>
    have settled := (second.surroundings (first.wellFormed wf)).writing.trans ((first.surroundings wf).writing.trans empty)
    cases next <;> exact settled
  | published a bm1 bm' x standing steps _ _ _ _ writing => exact writing.trans (locked steps (publishing standing))
  | publishedFull a bm1 bm' x pp standing steps _ _ _ _ writing _ _ =>
    exact ⟨pp,by rw [writing,locked steps (publishing standing)]; rfl,rfl⟩
  | uploaded c before pp after pp' blobs stored here split prepared _ =>
    simp only [Place.Aligned,here] at aligned
    obtain ⟨qq,alone,_⟩ := aligned
    obtain ⟨rfl,rfl,rfl⟩ := alone_of_split alone split
    exact ⟨pp',rfl,prepared.name⟩
  | indexed c before pp after built here split _ =>
    simp only [Place.Aligned,here] at aligned
    obtain ⟨qq,alone,_⟩ := aligned
    obtain ⟨rfl,rfl,rfl⟩ := alone_of_split alone split
    rfl
  | notStored c before pp after here split =>
    simp only [Place.Aligned,here] at aligned
    obtain ⟨qq,alone,_⟩ := aligned
    obtain ⟨rfl,rfl,rfl⟩ := alone_of_split alone split
    rfl
  | deleted c bm' ok _ here done =>
    have empty : bm.writingPacks = [] := by simpa only [Place.Aligned,here] using aligned
    rcases DeleteContent_cases wf (FreshNames.of_possible possible) done with same | ⟨x,republished⟩
    · exact same ▸ empty
    · exact republished.writing.trans empty

/-- A step of a calm machine starts a call when nobody is at work, or is one of the
last thread, or refreshes the index. -/
theorem Machine.Calm.step_cases {s s' : Machine} {l : Label} (calm : s.Calm) (sequential : Sequential s l)
    (taken : s.step codec l = some s') :
    (∃ call, l = .begin call ∧ s.Idle ∧ s' = {s with threads := s.threads ++ [call.start]}) ∨
    (∃ done t env bm' place, l = .run done.length env ∧ s.threads = done ++ [t] ∧ (∀ u ∈ done, u.Finished) ∧
      t.place.Aligned s.bm.writingPacks ∧ env.Possible s.bm ∧ t.run codec env s.bm = some (bm',place) ∧
      s' = ⟨bm',done ++ [{t with place := place}],acknowledge codec t place s.acknowledged⟩) ∨
    (∃ loaded, l = .refresh loaded ∧ s' = {s with bm := s.bm.refresh loaded}) := by
  rcases Machine.step_cases taken with ⟨call,rfl,same⟩ | ⟨i,env,t,bm',place,rfl,there,possible,ran,same⟩ | refreshed
  · exact Or.inl ⟨call,rfl,sequential,same⟩
  · refine Or.inr (Or.inl ?_)
    rcases calm with ⟨nobody,_⟩ | ⟨done,last,threads,finished,aligned⟩
    · simp [nobody] at there
    · have atEnd : i = done.length := by
        have bound : i < (done ++ [last]).length := threads ▸ (List.getElem?_eq_some_iff.mp there).1
        by_contra other
        have inside : i < done.length := by
          simp only [List.length_append,List.length_cons,List.length_nil] at bound
          omega
        rw [threads,List.getElem?_append_left inside] at there
        have stays : t.run codec env s.bm = none := (finished t (List.mem_of_getElem? there)).stays
        rw [stays] at ran
        contradiction
      subst atEnd
      have itself : t = last := by simpa [threads] using there.symm
      subst itself
      refine ⟨done,t,env,bm',place,rfl,threads,finished,aligned,possible,ran,same.trans ?_⟩
      simp [threads]
  · exact Or.inr (Or.inr refreshed)

theorem Machine.Calm.step {s s' : Machine} {l : Label} (calm : s.Calm) (consistent : s.Consistent codec)
    (sequential : Sequential s l) (taken : s.step codec l = some s') : s'.Calm := by
  rcases calm.step_cases sequential taken with
    ⟨call,_,idle,rfl⟩ | ⟨done,t,env,bm',place,_,_,finished,aligned,possible,ran,rfl⟩ | ⟨loaded,_,rfl⟩
  · refine Or.inr ⟨s.threads,call.start,rfl,idle,?_⟩
    have empty := calm.writing_of_idle idle
    cases call <;> exact empty
  · refine Or.inr ⟨done,{t with place := place},rfl,finished,?_⟩
    exact (Thread.run_effect consistent.wellFormed possible ran).aligned consistent.wellFormed possible aligned
  · exact calm

theorem initial_calm (now : Int) (committed : List Builder) (deletionWatermark : Int) (blobs : BlobID → Option Bytes) :
    (Machine.initial (NewWriteManager now committed deletionWatermark blobs)).Calm := Or.inl ⟨rfl,rfl⟩

end Calm

end Vbe.Content
