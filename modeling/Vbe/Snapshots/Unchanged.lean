import Vbe.Snapshots.Rewritten

/-! Which snapshots a rewriting that keeps every entry leaves as they are. -/
namespace Vbe.Snapshots.Rewriting
open Vbe.Index (Bytes)
open Vbe.Library Vbe.Workshare Family
open Vbe.Library.Paths (Join)

variable {ε κ : Type} {rewriter : DirRewriter ε κ} {e : DirEntry} {entries : List DirEntry}

/-- Every entry is kept, an unreadable directory is an error, and what was written as a directory is read as one. -/
structure Keeps (rewriter : DirRewriter ε κ) : Prop where
  rewrite : ∀ p e, rewriter.RewriteEntry p e = (some e,none)
  failure : ∀ p e err, rewriter.OnDirectoryReadFailure p e err = (none,some err)
  readback : ∀ dm oid, rewriter.writeDirManifest dm = .ok oid → rewriter.readDirEntries oid = .ok dm.Entries

/-- Every directory is the one that is made of its entries. -/
inductive Settled (rewriter : DirRewriter ε κ) : DirEntry → Prop
  | other {e : DirEntry} (kind : e.Type ≠ .EntryTypeDirectory) : Settled rewriter e
  | directory {e : DirEntry} {entries : List DirEntry} (kind : e.Type = .EntryTypeDirectory)
    (read : rewriter.readDirEntries e.ObjectID = .ok entries) (each : ∀ c ∈ entries, Settled rewriter c)
    (same : rewriter.rebuild e entries = .replaced e) : Settled rewriter e

theorem Keeps.placeless (keeps : Keeps rewriter) : Placeless rewriter :=
  ⟨fun p q e => (keeps.rewrite p e).trans (keeps.rewrite q e).symm,
    fun p q e err => (keeps.failure p e err).trans (keeps.failure q e err).symm⟩

theorem Keeps.finish (keeps : Keeps rewriter) (i : Bytes × DirEntry) (entries : List DirEntry) :
    rewriter.finish i entries = (rewriter.rebuild i.2 entries).wrap rewriter.Wrap i.2.Name := by
  rw [DirRewriter.finish,keeps.rewrite]

theorem Keeps.enter_other (keeps : Keeps rewriter) (p : Bytes) (kind : e.Type ≠ .EntryTypeDirectory) :
    rewriter.enter (p,e) = .answer (.replaced e) := by
  simp only [DirRewriter.enter,keeps.rewrite]
  exact if_neg kind

theorem Keeps.enter_directory (keeps : Keeps rewriter) (p : Bytes) (kind : e.Type = .EntryTypeDirectory) :
    rewriter.enter (p,e) = match rewriter.readDirEntries e.ObjectID with
      | .ok entries => .children (entries.map fun child => (Join p child.Name,child))
      | .error err => .answer (.failed (rewriter.Wrap err e.Name)) := by
  simp only [DirRewriter.enter,keeps.rewrite]
  rw [if_pos kind]
  cases rewriter.readDirEntries e.ObjectID with
  | ok entries => rfl
  | error err =>
    simp only [keeps.failure]
    rfl

theorem wrap_replaced {Wrap : ε → Bytes → ε} {message : Bytes} {r : Replacement ε} : r.wrap Wrap message = .replaced e ↔ r = .replaced e := by
  cases r <;> simp [Replacement.wrap]

/-- A directory that is made again has its name and type, and the entries that were written. -/
theorem rebuild_replaced {d : DirEntry} (made : rewriter.rebuild e entries = .replaced d) : d.Name = e.Name ∧ d.Type = e.Type ∧
    ∃ dm, dm.Entries = rewriter.sorting.sort entryLess entries ∧ rewriter.writeDirManifest dm = .ok d.ObjectID := by
  unfold DirRewriter.rebuild at made
  split at made
  next => cases made
  next summary _ =>
    simp only at made
    split at made
    next oid written =>
      cases made
      refine ⟨rfl,rfl,_,?_,written⟩
      show rewriter.sorting.sort entryLess (DirRewriter.addAll entries).entries = _
      rw [DirRewriter.addAll,foldl_entries]
      rfl
    next => cases made

/-- What entries are sorted by. -/
def place (e : DirEntry) : Bool ×ₗ Bytes := toLex (!isDir e,e.Name)

theorem place_eq {d : DirEntry} (name : d.Name = e.Name) (type : d.Type = e.Type) : place d = place e := by
  rw [place,place,isDir,isDir,name,type]

/-- An entry without an error is replaced by one in its place. -/
theorem Rewrites.in_place (keeps : Keeps rewriter) {i : Bytes × DirEntry} {r : Replacement ε} (plain : Rewrites rewriter i r)
    (go : r.stops = false) : ∃ d, r = .replaced d ∧ place d = place i.2 := by
  obtain ⟨p,e⟩ := i
  by_cases kind : e.Type = .EntryTypeDirectory
  · have enters := keeps.enter_directory p kind
    cases plain with
    | answer at_ =>
      rw [at_] at enters
      split at enters
      next => cases enters
      next =>
        cases enters
        cases go
    | directory at_ become each_go tidy =>
      rw [keeps.finish] at go ⊢
      generalize made : rewriter.rebuild e _ = r at go ⊢
      cases r with
      | replaced d =>
        obtain ⟨name,type,_⟩ := rebuild_replaced made
        exact ⟨d,rfl,place_eq name type⟩
      | removed =>
        unfold DirRewriter.rebuild at made
        split at made
        next => cases made
        next =>
          simp only at made
          split at made <;> cases made
      | _ => cases go
  · have enters := keeps.enter_other p kind
    cases plain with
    | answer at_ =>
      cases at_.symm.trans enters
      exact ⟨e,rfl,rfl⟩
    | directory at_ => cases at_.symm.trans enters

/-- The new entries of a directory, one for each old one and in its place. -/
theorem entries_in_place (keeps : Keeps rewriter) {inputs : List (Bytes × DirEntry)} {become : Bytes × DirEntry → Replacement ε}
    (each : ∀ c ∈ inputs, Rewrites rewriter c (become c)) (go : ∀ c ∈ inputs, (become c).stops = false) :
    List.Forall₂ (fun c d => become c = .replaced d ∧ place d = place c.2) inputs ((inputs.map become).filterMap Replacement.dirEntry) := by
  induction inputs with
  | nil => exact .nil
  | cons c inputs ih =>
    obtain ⟨d,is,there⟩ := (each c List.mem_cons_self).in_place keeps (go c List.mem_cons_self)
    have entry : (become c).dirEntry = some d := by rw [is]; rfl
    rw [List.map_cons,List.filterMap_cons_some entry]
    exact .cons ⟨is,there⟩ (ih (fun c' member => each c' (List.mem_cons_of_mem c member)) fun c' member => go c' (List.mem_cons_of_mem c member))

/-- Where the new entries are the old ones in some order, each of them is the old one. -/
theorem unmoved {inputs : List (Bytes × DirEntry)} {become : Bytes × DirEntry → Replacement ε} {news : List DirEntry}
    (all : List.Forall₂ (fun c d => become c = .replaced d ∧ place d = place c.2) inputs news) (tidy : Tidy news)
    (perm : news.Perm (inputs.map Prod.snd)) : ∀ c ∈ inputs, become c = .replaced c.2 := by
  intro c member
  obtain ⟨k,bound,rfl⟩ := List.getElem_of_mem member
  obtain ⟨length,each⟩ := List.forall₂_iff_get.mp all
  obtain ⟨is,there⟩ := each k bound (length ▸ bound)
  have distinct : ((inputs.map Prod.snd).map place).Nodup := (perm.map place).nodup_iff.mp tidy.names
  have new : news.get ⟨k,length ▸ bound⟩ ∈ inputs.map Prod.snd := perm.mem_iff.mp (List.get_mem _ _)
  have same := List.inj_on_of_nodup_map distinct new (List.mem_map_of_mem member) there
  exact is.trans (congrArg Replacement.replaced same)

theorem replaced_all {inputs : List (Bytes × DirEntry)} {become : Bytes × DirEntry → Replacement ε}
    (all : ∀ c ∈ inputs, become c = .replaced c.2) : (inputs.map become).filterMap Replacement.dirEntry = inputs.map Prod.snd := by
  rw [List.filterMap_map,← List.filterMap_eq_map]
  exact List.filterMap_congr fun c member => by
    rw [Function.comp_apply,all c member]
    rfl

/-- An entry stays as it is exactly if it is settled. -/
theorem replaced_iff (keeps : Keeps rewriter) {i : Bytes × DirEntry} {r : Replacement ε} (plain : Rewrites rewriter i r) :
    r = .replaced i.2 ↔ Settled rewriter i.2 := by
  induction plain with
  | @answer i r at_ =>
    obtain ⟨p,e⟩ := i
    by_cases kind : e.Type = .EntryTypeDirectory
    · have enters := at_.symm.trans (keeps.enter_directory p kind)
      constructor
      · rintro rfl
        split at enters <;> cases enters
      · intro settled
        cases settled with
        | other other => exact absurd kind other
        | directory _ read =>
          rw [read] at enters
          cases enters
    · cases at_.symm.trans (keeps.enter_other p kind)
      exact ⟨fun _ => .other kind,fun _ => rfl⟩
  | @directory i inputs at_ become each go tidy ih =>
    obtain ⟨p,e⟩ := i
    have kind : e.Type = .EntryTypeDirectory := by
      by_contra other
      cases at_.symm.trans (keeps.enter_other p other)
    obtain ⟨entries,read,rfl⟩ : ∃ entries, rewriter.readDirEntries e.ObjectID = .ok entries ∧
        inputs = entries.map fun child => (Join p child.Name,child) := by
      have enters := at_.symm.trans (keeps.enter_directory p kind)
      split at enters
      next entries read =>
        cases enters
        exact ⟨entries,read,rfl⟩
      next => cases enters
    have listed : (entries.map fun child => (Join p child.Name,child)).map Prod.snd = entries := by
      rw [List.map_map]
      exact List.map_id entries
    rw [keeps.finish,wrap_replaced]
    constructor
    · intro made
      obtain ⟨_,_,dm,sorted,written⟩ := rebuild_replaced made
      have back := keeps.readback dm _ written
      rw [read,sorted] at back
      have perm := (rewriter.sorting.perm entryLess _).symm.trans (.of_eq (Except.ok.inj back).symm)
      have stay := unmoved (entries_in_place keeps each go) tidy (perm.trans (.of_eq listed.symm))
      refine .directory kind read (fun c member => ?_) ?_
      · exact (ih _ (List.mem_map_of_mem member)).mp (stay _ (List.mem_map_of_mem member))
      · rw [replaced_all stay,listed] at made
        exact made
    · intro settled
      cases settled with
      | other other => exact absurd kind other
      | directory _ read' below same =>
        cases read.symm.trans read'
        have stay (c : Bytes × DirEntry) (member : c ∈ entries.map fun child => (Join p child.Name,child)) : become c = .replaced c.2 := by
          obtain ⟨child,inside,rfl⟩ := List.mem_map.mp member
          exact (ih _ member).mpr (below child inside)
        rw [replaced_all stay,listed]
        exact same

section Errors

theorem foldl_errors {b : DirManifestBuilder} (clean : ∀ d ∈ entries, count DirectorySummary.FatalErrorCount d = 0 ∧
    count DirectorySummary.IgnoredErrorCount d = 0 ∧ failures d = []) :
    (entries.foldl DirManifestBuilder.AddEntry b).summary.FatalErrorCount = b.summary.FatalErrorCount ∧
      (entries.foldl DirManifestBuilder.AddEntry b).summary.IgnoredErrorCount = b.summary.IgnoredErrorCount ∧
      (entries.foldl DirManifestBuilder.AddEntry b).summary.FailedEntries = b.summary.FailedEntries := by
  induction entries generalizing b with
  | nil => exact ⟨rfl,rfl,rfl⟩
  | cons d entries ih =>
    obtain ⟨fatal,ignored,failed⟩ := clean d List.mem_cons_self
    obtain ⟨fatal',ignored',failed'⟩ := ih (b := b.AddEntry d) fun d' member => clean d' (List.mem_cons_of_mem d member)
    rw [List.foldl_cons,fatal',ignored',failed',AddEntry_summary]
    simp [fatal,ignored,failed]

/-- Settled directories report no errors: what a builder was told of failed entries cannot be found again in the entries. -/
theorem Settled.clean (settled : Settled rewriter e) : count DirectorySummary.FatalErrorCount e = 0 ∧
    count DirectorySummary.IgnoredErrorCount e = 0 ∧ failures e = [] := by
  induction settled with
  | @other e kind =>
    have inner : below? e = none := if_neg (by simpa [isDir] using kind)
    simp [count,failures,inner]
  | @directory e entries kind _ _ same ih =>
    have inner : below? e = e.DirSummary := if_pos (decide_eq_true kind)
    unfold DirRewriter.rebuild at same
    split at same
    next => cases same
    next summary is =>
      simp only at same
      split at same
      next =>
        obtain ⟨fatal,ignored,failed⟩ := foldl_errors (b := .empty) ih
        have made : e.DirSummary = some ((DirRewriter.addAll entries).Build rewriter.sorting e.ModTime summary.IncompleteReason).1.Summary :=
          (congrArg DirEntry.DirSummary (Replacement.replaced.inj same)).symm
        rw [Build_summary] at made
        simp only [DirRewriter.addAll,fatal,ignored,failed] at made
        rw [count,count,failures,inner,made]
        exact ⟨rfl,rfl,List.perm_nil.mp (rewriter.sorting.perm pathLess [])⟩
      next => cases same

theorem Settled.no_errors (settled : Settled rewriter e) (directory : isDir e) :
    ∃ s, e.DirSummary = some s ∧ s.FatalErrorCount = 0 ∧ s.IgnoredErrorCount = 0 ∧ s.FailedEntries = [] := by
  have clean := settled.clean
  cases settled with
  | other kind => exact absurd (of_decide_eq_true directory) kind
  | directory _ _ _ same =>
    cases is : e.DirSummary with
    | none =>
      rw [DirRewriter.rebuild,is] at same
      cases same
    | some s =>
      have inner : below? e = some s := (if_pos directory).trans is
      rw [count,count,failures,inner] at clean
      exact ⟨s,rfl,clean⟩

end Errors

section Manifests
variable [DecidableEq κ] {roots : List DirEntry} {become : DirEntry → Replacement ε} {numCPU : Int}

theorem manifest_same (keyed : Function.Injective rewriter.getCacheKey) (keeps : Keeps rewriter) {invalid : ε} {message : Bytes}
    {root : DirEntry} {r : Replacement ε} :
    rewriter.RewriteSnapshotManifest invalid message root r = .ok (false,some root) ↔ r = .replaced root := by
  cases r with
  | replaced d =>
    by_cases same : d = root
    · simp [DirRewriter.RewriteSnapshotManifest,same]
    · have other : rewriter.getCacheKey d ≠ rewriter.getCacheKey root := keyed.ne same
      simp [DirRewriter.RewriteSnapshotManifest,same,other]
  | failed err => simp [DirRewriter.RewriteSnapshotManifest]
  | removed => simp [DirRewriter.RewriteSnapshotManifest,keeps.failure]
  | panicked => simp [DirRewriter.RewriteSnapshotManifest,keeps.failure]

end Manifests

end Vbe.Snapshots.Rewriting
