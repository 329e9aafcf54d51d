import Vbe.Auth.Authorizer
import Vbe.Library.Results
import Vbe.Library.Runs
import Mathlib.Data.List.Forall2

/-! Which repository the decisions of an authorizer come from, when a server switches between repositories. -/
namespace Vbe.Auth
open Vbe.Library.Results Vbe.Library.Runs

variable {Repository : Type} [DecidableEq Repository]

inductive Label (Repository : Type)
  | Authorize (rep : Option Repository) (usernameAtHostname : Text) (now now' : Time) (manifests : Manifests)
  | Refresh

/-- A cache with the loads that it has made, and the repository that its entries were loaded from last, once there is one. -/
structure Session (Repository : Type) where
  cache : aclCache Repository
  loads : List (Option Repository × Manifests)
  source : Option (Option Repository)

/-- A repository has returned the entry in some load. -/
def GotFrom (loads : List (Option Repository × Manifests)) (r : Repository) (e : Entry) : Prop :=
  ∃ manifests, (some r,manifests) ∈ loads ∧
    (manifests.GetManifest e.ManifestID).map (fun p => { p with ManifestID := e.ManifestID }) = some e

/-- The entries of a set are those of the manifests that a repository listed in some load, each as the repository returned it
in some load. -/
def LoadedFrom (loads : List (Option Repository × Manifests)) : Option Repository → List Entry → Prop
  | none, entries => entries = [] ∧ ∃ manifests, (none,manifests) ∈ loads
  | some r, entries =>
    (∃ manifests, (some r,manifests) ∈ loads ∧ manifests.FindManifests = some (entries.map Entry.ManifestID)) ∧
    ∀ e ∈ entries, GotFrom loads r e

namespace Session

def start : Session Repository := ⟨DefaultAuthorizer,[],none⟩

/-- Whether a call loads, and what it then gets. -/
def loading (s : Session Repository) (rep : Option Repository) (now : Time) (manifests : Manifests) : Option (Option (List Entry)) :=
  if s.cache.Due rep now then some (LoadEntries rep manifests (s.cache.discarded rep).aclEntries) else none

def sourceAfter (s : Session Repository) (rep : Option Repository) (now : Time) (manifests : Manifests) : Option (Option Repository) :=
  match s.loading rep now manifests with
  | some (some _) => some rep
  | _ => if rep = s.cache.lastRep ∧ s.source ≠ some rep then none else s.source

def step (s : Session Repository) : Label Repository → Option (Session Repository)
  | .Authorize rep user now now' manifests =>
    if (user.splitOn '@').length = 2 then some {
      cache := (s.cache.Authorize rep user now now' manifests).1
      loads := if s.cache.Due rep now then s.loads ++ [(rep,manifests)] else s.loads
      source := s.sourceAfter rep now manifests }
    else some s
  | .Refresh => some { s with cache := s.cache.Refresh }

/-- A repository other than the one that the entries come from is asked about when the entries are due, it can be loaded, and
lists none of the manifests that they come from. -/
def Fresh (s : Session Repository) (rep : Option Repository) (now : Time) (manifests : Manifests) : Prop :=
  s.cache.Due rep now ∧ (LoadEntries rep manifests []).isSome = true ∧
    ∀ ids, manifests.FindManifests = some ids → ∀ e ∈ s.cache.aclEntries, e.ManifestID ∉ ids

def Orderly (s : Session Repository) : Label Repository → Prop
  | .Authorize rep user now _ manifests => (user.splitOn '@').length = 2 → s.source = some rep ∨ s.Fresh rep now manifests
  | .Refresh => True

end Session

section Loading
variable {rep : Option Repository} {r : Repository} {manifests : Manifests} {old entries : List Entry}
  {loads loads' : List (Option Repository × Manifests)}

omit [DecidableEq Repository] in
theorem LoadedFrom.mono (loaded : LoadedFrom loads rep entries) (more : loads ⊆ loads') : LoadedFrom loads' rep entries := by
  cases rep with
  | none =>
    obtain ⟨empty,manifests,there⟩ := loaded
    exact ⟨empty,manifests,more there⟩
  | some r =>
    obtain ⟨⟨manifests,there,listed⟩,got⟩ := loaded
    refine ⟨⟨manifests,more there,listed⟩,fun e member => ?_⟩
    obtain ⟨manifests,there,entry⟩ := got e member
    exact ⟨manifests,more there,entry⟩

omit [DecidableEq Repository] in
/-- Entries that come from elsewhere are not taken for those of a repository that lists other manifests. -/
theorem LoadEntries_fresh (other : ∀ ids, manifests.FindManifests = some ids → ∀ e ∈ old, e.ManifestID ∉ ids) :
    LoadEntries rep manifests old = LoadEntries rep manifests [] := by
  cases rep with
  | none => rfl
  | some r =>
    rw [LoadEntries,LoadEntries]
    cases listed : manifests.FindManifests with
    | none => rfl
    | some ids =>
      rw [Option.bind_some,Option.bind_some]
      apply mapM_option_congr
      intro id member
      have absent : old.reverse.find? (fun o => o.ManifestID = id) = none := by
        rw [List.find?_eq_none]
        intro e inside same
        exact other ids listed e (List.mem_reverse.mp inside) ((by simpa using same : e.ManifestID = id) ▸ member)
      rw [absent]
      rfl

omit [DecidableEq Repository] in
/-- What is loaded comes from the repository if the old entries that are taken over do. -/
theorem LoadEntries_loadedFrom (there : (rep,manifests) ∈ loads) (own : ∀ r, rep = some r → ∀ e ∈ old, GotFrom loads r e)
    (loaded : LoadEntries rep manifests old = some entries) : LoadedFrom loads rep entries := by
  cases rep with
  | none =>
    cases loaded
    exact ⟨rfl,manifests,there⟩
  | some r =>
    obtain ⟨ids,listed,rounds⟩ := Option.bind_eq_some_iff.mp loaded
    have round (id : Text) (e : Entry) (result : (old.reverse.find? fun o => o.ManifestID = id).or
        ((manifests.GetManifest id).map fun p => { p with ManifestID := id }) = some e) :
        e.ManifestID = id ∧ GotFrom loads r e := by
      rcases Option.or_eq_some_iff.mp result with found | ⟨_,read⟩
      · exact ⟨by simpa using List.find?_some found,own r rfl e (List.mem_reverse.mp (List.mem_of_find?_eq_some found))⟩
      · obtain ⟨p,got,rfl⟩ := Option.map_eq_some_iff.mp read
        exact ⟨rfl,manifests,there,by rw [got]; rfl⟩
    have same := mapM_option_map rounds fun id e result => (round id e result).1
    refine ⟨⟨manifests,there,same ▸ listed⟩,fun e member => ?_⟩
    obtain ⟨id,_,result⟩ := mapM_option_mem rounds member
    exact (round id e result).2

end Loading

section Steps
variable {s s' t : Session Repository} {rep : Option Repository} {user : Text} {now now' : Time} {manifests : Manifests}

namespace Session

/-- The last repository is never set, and what is cached comes from where it was loaded last. -/
structure Inv (s : Session Repository) : Prop where
  unset : s.cache.lastRep = none
  loaded : ∀ rep, s.source = some rep → LoadedFrom s.loads rep s.cache.aclEntries

theorem Inv.discarded (inv : s.Inv) (r : Repository) : s.cache.discarded (some r) = s.cache := by
  rw [aclCache.discarded,inv.unset,if_neg nofun]

theorem Inv.discarded_entries (inv : s.Inv) (rep : Option Repository) : (s.cache.discarded rep).aclEntries ⊆ s.cache.aclEntries := by
  cases rep with
  | none =>
    rw [aclCache.discarded,inv.unset,if_pos rfl]
    exact List.nil_subset _
  | some r =>
    rw [inv.discarded]
    exact List.Subset.refl _

/-- What is kept without a load is as it was loaded. -/
theorem Inv.kept (inv : s.Inv) (source : s.source = some rep) : LoadedFrom s.loads rep (s.cache.discarded rep).aclEntries := by
  have loaded := inv.loaded rep source
  cases rep with
  | none =>
    rw [aclCache.discarded,inv.unset,if_pos rfl]
    exact ⟨rfl,loaded.2⟩
  | some r =>
    rw [inv.discarded]
    exact loaded

/-- A fresh call loads what it would load into an empty cache. -/
theorem Inv.fresh (inv : s.Inv) (fresh : s.Fresh rep now manifests) :
    LoadEntries rep manifests (s.cache.discarded rep).aclEntries = LoadEntries rep manifests [] :=
  LoadEntries_fresh fun ids listed e member => fresh.2.2 ids listed e (inv.discarded_entries rep member)

/-- After an orderly call the entries come from its repository, from loads before it if its own load has failed. -/
theorem Inv.refreshed (inv : s.Inv) (orderly : s.source = some rep ∨ s.Fresh rep now manifests) (now' : Time) :
    s.sourceAfter rep now manifests = some rep ∧
      LoadedFrom (if s.cache.Due rep now then s.loads ++ [(rep,manifests)] else s.loads) rep
        (s.cache.refreshed rep now now' manifests).aclEntries ∧
      (s.loading rep now manifests = some none → LoadedFrom s.loads rep (s.cache.refreshed rep now now' manifests).aclEntries) := by
  rw [sourceAfter,loading,aclCache.refreshed]
  by_cases due : s.cache.Due rep now
  · simp only [if_pos due]
    cases loaded : LoadEntries rep manifests (s.cache.discarded rep).aclEntries with
    | some entries =>
      refine ⟨rfl,?_,nofun⟩
      have there : (rep,manifests) ∈ s.loads ++ [(rep,manifests)] := by simp
      rcases orderly with source | fresh
      · refine LoadEntries_loadedFrom there ?_ loaded
        rintro r rfl e member
        have old := (inv.kept source).mono (List.subset_append_left _ [(some r,manifests)])
        exact old.2 e member
      · exact LoadEntries_loadedFrom there (fun _ _ _ member => absurd member List.not_mem_nil) ((inv.fresh fresh).symm.trans loaded)
    | none =>
      rcases orderly with source | fresh
      · have kept := inv.kept source
        refine ⟨?_,kept.mono (List.subset_append_left _ _),fun _ => kept⟩
        simp [source]
      · have some := fresh.2.1
        rw [← inv.fresh fresh,loaded] at some
        contradiction
  · simp only [if_neg due]
    rcases orderly with source | fresh
    · refine ⟨?_,inv.kept source,nofun⟩
      simp [source]
    · exact absurd fresh.1 due

theorem Authorize_eq (ac : aclCache Repository) (rep : Option Repository) {user u h : Text} (split : user.splitOn '@' = [u,h])
    (now now' : Time) (manifests : Manifests) : ac.Authorize rep user now now' manifests =
      (ac.refreshed rep now now' manifests,authorizationInfo (ac.refreshed rep now now' manifests).aclEntries user u h) := by
  rw [aclCache.Authorize,split]

theorem refreshed_lastRep (unset : s.cache.lastRep = none) : (s.cache.refreshed rep now now' manifests).lastRep = none := by
  have same : (s.cache.discarded rep).lastRep = none := by
    rw [aclCache.discarded]
    split
    next current => exact current.trans unset
    next => exact unset
  rw [aclCache.refreshed]
  split <;> exact same

theorem Inv.step (inv : s.Inv) {l : Label Repository} (orderly : s.Orderly l) (taken : s.step l = some t) : t.Inv := by
  cases l with
  | Authorize rep user now now' manifests =>
    rw [Session.step] at taken
    split at taken
    next named =>
      obtain ⟨u,h,split⟩ := List.length_eq_two.mp named
      obtain ⟨source,loaded,_⟩ := inv.refreshed (orderly named) now'
      rw [Authorize_eq _ _ split] at taken
      cases taken
      refine ⟨refreshed_lastRep inv.unset,fun rep' same => ?_⟩
      obtain rfl : rep = rep' := Option.some.inj (source.symm.trans same)
      exact loaded
    next =>
      cases taken
      exact inv
  | Refresh =>
    cases taken
    exact ⟨inv.unset,inv.loaded⟩

/-- Two sessions that differ at most in entries of other repositories. -/
structure Agree (rep : Option Repository) (s s' : Session Repository) : Prop where
  frequency : s.cache.aclRefreshFrequency = s'.cache.aclRefreshFrequency
  time : s.cache.nextRefreshTime = s'.cache.nextRefreshTime
  source : s.source = s'.source
  entries : s.source = some rep → s.cache.aclEntries = s'.cache.aclEntries

theorem Agree.discarded (agree : Agree rep s s') (inv : s.Inv) (inv' : s'.Inv) (r : Option Repository) :
    (s.cache.discarded r).nextRefreshTime = (s'.cache.discarded r).nextRefreshTime := by
  rw [aclCache.discarded,aclCache.discarded,inv.unset,inv'.unset]
  split
  next => rfl
  next => exact agree.time

theorem Agree.due (agree : Agree rep s s') (inv : s.Inv) (inv' : s'.Inv) (r : Option Repository) (now : Time) :
    s.cache.Due r now ↔ s'.cache.Due r now := by
  rw [aclCache.Due,aclCache.Due,agree.discarded inv inv']

/-- Orderly calls about the same repository, in which it answers the same, leave the same entries. -/
theorem Agree.refreshed (agree : Agree rep s s') (inv : s.Inv) (inv' : s'.Inv) (orderly : s.source = some rep ∨ s.Fresh rep now manifests)
    (orderly' : s'.source = some rep ∨ s'.Fresh rep now manifests) (now' : Time) :
    (s.cache.refreshed rep now now' manifests).aclEntries = (s'.cache.refreshed rep now now' manifests).aclEntries := by
  have due := agree.due inv inv' rep now
  rw [aclCache.refreshed,aclCache.refreshed]
  by_cases source : s.source = some rep
  · have same : (s.cache.discarded rep).aclEntries = (s'.cache.discarded rep).aclEntries := by
      rw [aclCache.discarded,aclCache.discarded,inv.unset,inv'.unset]
      split
      next => rfl
      next => exact agree.entries source
    simp only [due,same]
    split
    next => rfl
    next => exact same
  · have fresh := orderly.resolve_left source
    have fresh' := orderly'.resolve_left (agree.source ▸ source)
    rw [if_pos fresh.1,if_pos fresh'.1]
    dsimp only
    obtain ⟨entries,loaded⟩ := Option.isSome_iff_exists.mp fresh.2.1
    rw [inv.fresh fresh,inv'.fresh fresh',loaded]
    rfl

theorem Agree.time_refreshed (agree : Agree rep s s') (inv : s.Inv) (inv' : s'.Inv) (r : Option Repository) (manifests' : Manifests) :
    (s.cache.refreshed r now now' manifests).nextRefreshTime = (s'.cache.refreshed r now now' manifests').nextRefreshTime := by
  have due := agree.due inv inv' r now
  rw [aclCache.refreshed,aclCache.refreshed]
  simp only [due]
  split
  next => exact congrArg (now' + ·) agree.frequency
  next => exact agree.discarded inv inv' r

end Session

/-- Calls that differ at most in what other repositories answer. -/
inductive Alike (rep : Option Repository) : Label Repository → Label Repository → Prop
  | same (l : Label Repository) : Alike rep l l
  | other {r : Option Repository} (differs : r ≠ rep) (user : Text) (now now' : Time) (manifests manifests' : Manifests) :
    Alike rep (.Authorize r user now now' manifests) (.Authorize r user now now' manifests')

namespace Session

theorem refreshed_frequency (ac : aclCache Repository) (rep : Option Repository) (now now' : Time) (manifests : Manifests) :
    (ac.refreshed rep now now' manifests).aclRefreshFrequency = ac.aclRefreshFrequency := by
  have same : (ac.discarded rep).aclRefreshFrequency = ac.aclRefreshFrequency := by
    rw [aclCache.discarded]
    split <;> rfl
  rw [aclCache.refreshed]
  split <;> exact same

theorem Agree.authorized {t' : Session Repository} (agree : Agree rep s s') (inv : s.Inv) (inv' : s'.Inv) {r : Option Repository}
    {manifests' : Manifests} (alike : r = rep → manifests = manifests') (orderly : s.Orderly (.Authorize r user now now' manifests))
    (orderly' : s'.Orderly (.Authorize r user now now' manifests')) (taken : s.step (.Authorize r user now now' manifests) = some t)
    (taken' : s'.step (.Authorize r user now now' manifests') = some t') : Agree rep t t' := by
  rw [Session.step] at taken taken'
  by_cases named : (user.splitOn '@').length = 2
  · obtain ⟨u,h,split⟩ := List.length_eq_two.mp named
    have source := (inv.refreshed (orderly named) now').1
    have source' := (inv'.refreshed (orderly' named) now').1
    rw [if_pos named,Authorize_eq _ _ split] at taken taken'
    cases taken
    cases taken'
    refine ⟨?_,agree.time_refreshed inv inv' r manifests',source.trans source'.symm,fun here => ?_⟩
    · exact (refreshed_frequency ..).trans (agree.frequency.trans (refreshed_frequency ..).symm)
    · obtain rfl : r = rep := Option.some.inj (source.symm.trans here)
      obtain rfl := alike rfl
      exact agree.refreshed inv inv' (orderly named) (orderly' named) now'
  · rw [if_neg named] at taken taken'
    cases taken
    cases taken'
    exact agree

theorem Agree.step {l l' : Label Repository} {t' : Session Repository} (agree : Agree rep s s') (inv : s.Inv) (inv' : s'.Inv)
    (alike : Alike rep l l') (orderly : s.Orderly l) (orderly' : s'.Orderly l') (taken : s.step l = some t) (taken' : s'.step l' = some t') :
    Agree rep t t' := by
  cases alike with
  | other differs user now now' manifests manifests' =>
    exact agree.authorized inv inv' (fun here => absurd here differs) orderly orderly' taken taken'
  | same =>
    cases l with
    | Authorize r user now now' manifests => exact agree.authorized inv inv' (fun _ => rfl) orderly orderly' taken taken'
    | Refresh =>
      cases taken
      cases taken'
      exact ⟨agree.frequency,rfl,agree.source,agree.entries⟩

/-- Runs that are alike agree. -/
theorem Agree.runs {calls calls' : List (Label Repository)} {t' : Session Repository} (agree : Agree rep s s') (inv : s.Inv) (inv' : s'.Inv)
    (alike : List.Forall₂ (Alike rep) calls calls') (orderly : Meets Session.step Orderly s calls) (orderly' : Meets Session.step Orderly s' calls')
    (reached : run Session.step s calls = some t) (reached' : run Session.step s' calls' = some t') : Agree rep t t' := by
  induction alike generalizing s s' with
  | nil =>
    cases reached
    cases reached'
    exact agree
  | @cons l l' calls calls' first rest ih =>
    cases taken : s.step l with
    | none => simp [run,taken] at reached
    | some u =>
      cases taken' : s'.step l' with
      | none => simp [run,taken'] at reached'
      | some u' =>
        rw [run_cons taken] at reached
        rw [run_cons taken'] at reached'
        exact ih (agree.step inv inv' first orderly.1 orderly'.1 taken taken') (inv.step orderly.1 taken) (inv'.step orderly'.1 taken')
          (orderly.2 u taken) (orderly'.2 u' taken') reached reached'

end Session

end Steps

section Main
variable {rep : Option Repository} {user : Text} {now now' : Time} {manifests : Manifests}

omit [DecidableEq Repository] in
theorem start_inv : (Session.start : Session Repository).Inv := ⟨rfl,nofun⟩

/-- The answer comes from the repository that is asked about, and if it cannot be loaded now, from what was loaded before. -/
def Follows (s : Session Repository) (rep : Option Repository) (user : Text) (now now' : Time) (manifests : Manifests) : Prop :=
  (user.splitOn '@').length ≠ 2 ∧ (s.cache.Authorize rep user now now' manifests).2 = .NoAccess ∨
  ∃ u h entries, user.splitOn '@' = [u,h] ∧
    LoadedFrom (if s.cache.Due rep now then s.loads ++ [(rep,manifests)] else s.loads) rep entries ∧
    (s.cache.Authorize rep user now now' manifests).2 = authorizationInfo entries user u h ∧
    (s.loading rep now manifests = some none → LoadedFrom s.loads rep entries)

end Main

section Examples

def someUser : Text := "a@b".toList

def noLists : Manifests := ⟨some [],fun _ => none⟩

/-- Everybody may read contents. -/
def readers : Entry := ⟨"1".toList,"*@*".toList,ContentRule,AccessLevelRead⟩

def readersOnly : Manifests := ⟨some [readers.ManifestID],fun _ => some readers⟩

def firstServed : Label Bool := .Authorize (some false) someUser 1 1 noLists

end Examples

end Vbe.Auth
