import Vbe.Snapshots.DirRewriter

/-! The rewriting of snapshots in parallel, with its cache, has the results of the plain one. -/
namespace Vbe.Snapshots.Rewriting
open Vbe.Index (Bytes)
open Vbe.Library Vbe.Workshare Family
open Vbe.Library.Paths (Join)

variable {ε κ : Type} {rewriter : DirRewriter ε κ} {i : Bytes × DirEntry} {r r' : Replacement ε}

/-- What an entry becomes in one goroutine and without a cache, where no error is met and the new entries are tidy. -/
inductive Rewrites (rewriter : DirRewriter ε κ) : Bytes × DirEntry → Replacement ε → Prop
  | answer {i : Bytes × DirEntry} {r : Replacement ε} (at_ : rewriter.enter i = .answer r) : Rewrites rewriter i r
  | directory {i : Bytes × DirEntry} {inputs : List (Bytes × DirEntry)} (at_ : rewriter.enter i = .children inputs) (become : Bytes × DirEntry → Replacement ε)
    (each : ∀ c ∈ inputs, Rewrites rewriter c (become c)) (go : ∀ c ∈ inputs, (become c).stops = false)
    (tidy : Tidy ((inputs.map become).filterMap Replacement.dirEntry)) :
    Rewrites rewriter i (rewriter.finish i ((inputs.map become).filterMap Replacement.dirEntry))

theorem rebuild_perm (entry : DirEntry) {entries entries' : List DirEntry} (tidy : Tidy entries) (perm : entries.Perm entries') :
    rewriter.rebuild entry entries = rewriter.rebuild entry entries' := by
  unfold DirRewriter.rebuild
  cases entry.DirSummary with
  | none => rfl
  | some summary => simp only [Build_perm rewriter.sorting tidy perm]

theorem finish_perm (i : Bytes × DirEntry) {entries entries' : List DirEntry} (tidy : Tidy entries) (perm : entries.Perm entries') :
    rewriter.finish i entries = rewriter.finish i entries' := by
  unfold DirRewriter.finish
  split
  next entry _ _ => rw [rebuild_perm entry tidy perm]
  next => rfl

theorem isPanic_of_stops (go : r.stops = false) : r.isPanic = false := by
  cases r with
  | panicked => contradiction
  | _ => rfl

variable [DecidableEq κ]

/-- Whatever is handed over, an entry becomes what it becomes in one goroutine. -/
theorem gives_rewrites (plain : Rewrites rewriter i r) (gives : rewriter.getCachedReplacement.Gives rewriter.enter i r') : r' = r := by
  induction plain generalizing r' with
  | answer at_ =>
    cases gives with
    | answer at' =>
      cases at_.symm.trans at'
      rfl
    | all at' => cases at_.symm.trans at'
    | stop at' => cases at_.symm.trans at'
  | @directory i inputs at_ become each go tidy ih =>
    cases gives with
    | answer at' => cases at_.symm.trans at'
    | stop at' inside give stops =>
      cases at_.symm.trans at'
      rw [ih _ inside give] at stops
      exact absurd (stops.symm.trans (go _ inside)) (by simp)
    | all at' parts same give _ =>
      cases at_.symm.trans at'
      have results (p : Part (Bytes × DirEntry) (Replacement ε)) (member : p ∈ parts) : p.input ∈ inputs ∧ p.result = become p.input := by
        have inside : p.input ∈ inputs := same ▸ List.mem_map_of_mem member
        exact ⟨inside,ih _ inside (give p member)⟩
      have calm : (Part.group parts).any Replacement.isPanic = false := by
        rw [List.any_eq_false]
        intro r member
        obtain ⟨p,there,rfl⟩ := List.mem_map.mp member
        obtain ⟨inside,is⟩ := results p (List.mem_of_mem_filter there)
        rw [is]
        simpa using isPanic_of_stops (go _ inside)
      have order : ((Part.calls parts).filterMap Replacement.dirEntry ++ (Part.group parts).filterMap Replacement.dirEntry).Perm
          ((inputs.map become).filterMap Replacement.dirEntry) := by
        rw [← List.filterMap_append,Part.calls,Part.group,← List.map_append]
        refine ((List.perm_append_comm.trans (List.filter_append_perm Part.async parts)).map _).filterMap _ |>.trans (.of_eq ?_)
        rw [← same,List.map_map]
        exact congrArg _ (List.map_congr_left fun p member => (results p member).2)
      show (if _ then _ else _) = _
      rw [calm]
      exact (finish_perm i tidy order.symm).symm

section Cached

/-- The callbacks do not look at where an entry is. -/
structure Placeless (rewriter : DirRewriter ε κ) : Prop where
  rewrite : ∀ p q e, rewriter.RewriteEntry p e = rewriter.RewriteEntry q e
  failure : ∀ p q e err, rewriter.OnDirectoryReadFailure p e err = rewriter.OnDirectoryReadFailure q e err

/-- The input with the same entry somewhere else. -/
def moved (q : Bytes) (i : Bytes × DirEntry) : Bytes × DirEntry := (q,i.2)

/-- Inputs in a directory that is somewhere else. -/
def movedChild (q : Bytes) (c : Bytes × DirEntry) : Bytes × DirEntry := (Join q c.2.Name,c.2)

omit [DecidableEq κ] in
theorem enter_answer (placeless : Placeless rewriter) (q : Bytes) (at_ : rewriter.enter i = .answer r) :
    rewriter.enter (moved q i) = .answer r := by
  obtain ⟨p,input⟩ := i
  simp only [DirRewriter.enter,moved] at at_ ⊢
  rw [placeless.rewrite q p]
  split at at_
  next => exact at_
  next result _ _ =>
    split at at_
    next directory =>
      rw [if_pos directory]
      split at at_
      next => cases at_
      next err _ =>
        rw [placeless.failure q p]
        exact at_
    next other =>
      rw [if_neg other]
      exact at_

omit [DecidableEq κ] in
theorem enter_children (placeless : Placeless rewriter) (q : Bytes) {inputs : List (Bytes × DirEntry)}
    (at_ : rewriter.enter i = .children inputs) : rewriter.enter (moved q i) = .children (inputs.map (movedChild q)) := by
  obtain ⟨p,input⟩ := i
  simp only [DirRewriter.enter,moved] at at_ ⊢
  rw [placeless.rewrite q p]
  split at at_
  next => cases at_
  next result _ _ =>
    split at at_
    next directory =>
      rw [if_pos directory]
      split at at_
      next entries _ =>
        cases at_
        simp only [List.map_map]
        rfl
      next => split at at_ <;> cases at_
    next => cases at_

omit [DecidableEq κ] in
theorem enter_ne_hit (i : Bytes × DirEntry) (r : Replacement ε) : rewriter.enter i ≠ .hit r := by
  obtain ⟨p,input⟩ := i
  intro at_
  simp only [DirRewriter.enter] at at_
  split at at_
  next => cases at_
  next =>
    split at at_
    next =>
      split at at_
      next => cases at_
      next => split at at_ <;> cases at_
    next => cases at_

/-- Where an entry is makes no difference to what it becomes. -/
theorem gives_moved (placeless : Placeless rewriter) (q : Bytes) (gives : rewriter.getCachedReplacement.Gives rewriter.enter i r) :
    rewriter.getCachedReplacement.Gives rewriter.enter (moved q i) r := by
  induction gives generalizing q with
  | answer at_ => exact .answer (enter_answer placeless q at_)
  | @all i inputs at_ parts same give go ih =>
    have calls : Part.calls (parts.map fun p => { p with input := movedChild q p.input }) = Part.calls parts := by
      rw [Part.calls,List.filter_map,List.map_map]
      rfl
    have group : Part.group (parts.map fun p => { p with input := movedChild q p.input }) = Part.group parts := by
      rw [Part.group,List.filter_map,List.map_map]
      rfl
    have finish : rewriter.getCachedReplacement.finish i = rewriter.getCachedReplacement.finish (moved q i) := by
      funext calls group
      simp only [DirRewriter.getCachedReplacement,DirRewriter.finish,moved]
      rw [placeless.rewrite q i.1]
    rw [finish,← calls,← group]
    refine .all (enter_children placeless q at_) _ ?_ ?_ ?_
    · rw [← same,List.map_map,List.map_map]
      rfl
    · intro p' member
      obtain ⟨p,there,rfl⟩ := List.mem_map.mp member
      exact ih p there _
    · intro p' member
      obtain ⟨p,there,rfl⟩ := List.mem_map.mp member
      exact go p there
  | @stop i inputs c r at_ inside give stops ih =>
    exact .stop (c := movedChild q c) (enter_children placeless q at_) (List.mem_map_of_mem inside) (ih (Join q c.2.Name)) stops

/-- Each cached entry is what some entry with its key becomes, wherever it is. -/
def Valid (rewriter : DirRewriter ε κ) (cache : Cache κ) : Prop :=
  ∀ kv ∈ cache, ∃ e, rewriter.getCacheKey e = kv.1 ∧ ∀ p, rewriter.getCachedReplacement.Gives rewriter.enter (p,e) (.replaced kv.2)

theorem mem_of_lookup {cache : Cache κ} {key : κ} {de : DirEntry} (found : cache.lookup key = some de) : (key,de) ∈ cache := by
  induction cache with
  | nil => cases found
  | cons kv cache ih =>
    rw [List.lookup_cons] at found
    split at found
    next same =>
      cases found
      rw [beq_iff_eq] at same
      rw [same]
      exact List.mem_cons_self
    next => exact List.mem_cons_of_mem kv (ih found)

theorem sound_rewriter (keyed : Function.Injective rewriter.getCacheKey) (placeless : Placeless rewriter) :
    rewriter.getCachedReplacement.Sound rewriter.enter (Valid rewriter) where
  hit {cache i r} valid at_ := by
    simp only [DirRewriter.getCachedReplacement] at at_
    split at at_
    next cached found =>
      cases at_
      obtain ⟨e,same,gives⟩ := valid _ (mem_of_lookup found)
      cases keyed same
      exact gives i.1
    next => exact absurd at_ (enter_ne_hit i r)
  answer {cache i r} _ at_ := by
    simp only [DirRewriter.getCachedReplacement] at at_
    split at at_
    next => cases at_
    next => exact at_
  children {cache i inputs} _ at_ := by
    simp only [DirRewriter.getCachedReplacement] at at_
    split at at_
    next => cases at_
    next => exact at_
  leave {cache i r} valid gives := by
    simp only [DirRewriter.getCachedReplacement]
    split
    next result is =>
      cases r with
      | replaced de =>
        cases is
        rw [Cache.PutIfAbsent]
        split
        next => exact valid
        next => exact List.forall_mem_cons.mpr ⟨⟨i.2,rfl,fun p => gives_moved placeless p gives⟩,valid⟩
      | _ => cases is
    next => exact valid

end Cached

section Manifests
variable {roots : List DirEntry} {become : DirEntry → Replacement ε} {numCPU : Int}

abbrev Rewriters (ε κ : Type) := Library.Calls (Pool (Cache κ)) (Workshare.Task (Request (Bytes × DirEntry) (Replacement ε))) Unit

/-- The calls for some snapshots with one rewriter. -/
def starts (rewriter : DirRewriter ε κ) (numCPU : Int) (roots : List DirEntry) : Rewriters ε κ :=
  Walk.start (rewriter.numWorkers numCPU) [] (roots.map fun root => (Library.Paths.dot,root))

/-- What a goroutine does next. -/
def step (rewriter : DirRewriter ε κ) (numCPU : Int) : Rewriters ε κ → Nat × Position × Unit → Option (Rewriters ε κ) :=
  Library.Calls.step (act rewriter.getCachedReplacement.process (rewriter.numWorkers numCPU))

/-- What has become of the snapshots when no goroutine can go on. -/
theorem rewritten (keyed : Function.Injective rewriter.getCacheKey) (placeless : Placeless rewriter)
    (plain : ∀ root ∈ roots, Rewrites rewriter (Library.Paths.dot,root) (become root)) {labels : List (Nat × Position × Unit)} {c : Rewriters ε κ}
    (reached : Runs.run (step rewriter numCPU) (starts rewriter numCPU roots) labels = some c) (stuck : ∀ l, step rewriter numCPU c l = none) :
    List.Forall₂ (fun call root => answer? call = some (become root)) c.calls roots := by
  have gives := walks_give (sound_rewriter keyed placeless) (fun kv member => absurd member List.not_mem_nil) reached stuck
  obtain ⟨length,each⟩ := List.forall₂_iff_zip.mp (List.forall₂_map_right_iff.mp gives)
  refine List.forall₂_iff_zip.mpr ⟨length,fun {call root} member => ?_⟩
  obtain ⟨r,is,gives⟩ := each member
  rw [is,gives_rewrites (plain root (List.of_mem_zip member).2) gives]

/-- Some snapshots are rewritten with one pool and one cache. Where the plain rewriting meets no error and leaves tidy directories, every
run ends, after a number of steps that the entries bound, and each snapshot has become what it becomes on its own. -/
theorem rewrites_agree (keyed : Function.Injective rewriter.getCacheKey) (placeless : Placeless rewriter)
    (founded : WellFounded (Inside rewriter.enter)) (plain : ∀ root ∈ roots, Rewrites rewriter (Library.Paths.dot,root) (become root)) :
    ∃ bound, ∀ labels c, Runs.run (step rewriter numCPU) (starts rewriter numCPU roots) labels = some c →
      labels.length ≤ bound ∧ ((∀ l, step rewriter numCPU c l = none) →
        List.Forall₂ (fun call root => answer? call = some (become root)) c.calls roots) := by
  obtain ⟨size,sized⟩ := exists_size founded
  have walk_sized : rewriter.getCachedReplacement.Sized size := fun {cache i inputs} at_ => by
    simp only [DirRewriter.getCachedReplacement] at at_
    split at at_
    next => cases at_
    next => exact sized at_
  exact ⟨_,fun labels c reached => ⟨walks_length walk_sized reached,rewritten keyed placeless plain reached⟩⟩

/-- A directory with one file, where every entry is kept. -/
theorem rewrites_agree_one :
    let file : DirEntry := ⟨[],.EntryTypeFile,0,1,2,0,0,Objects.EmptyID,none⟩
    let root : DirEntry := ⟨[],.EntryTypeDirectory,0,0,3,0,0,Objects.EmptyID,some .empty⟩
    let rewriter : DirRewriter Unit DirEntry :=
      ⟨2,fun _ e => (some e,none),fun _ _ err => (none,some err),fun _ => .ok [file],fun _ => .ok Objects.EmptyID,id,.stable,fun err _ => err⟩
    ∃ bound, ∀ labels c, Runs.run (step rewriter 8) (starts rewriter 8 [root]) labels = some c →
      labels.length ≤ bound ∧ ((∀ l, step rewriter 8 c l = none) →
        List.Forall₂ (fun call root => answer? call = some (rewriter.finish (Library.Paths.dot,root) [file])) c.calls [root]) := by
  intro file root rewriter
  have alone (i c : Bytes × DirEntry) (inside : Inside rewriter.enter c i) : c.2 = file := by
    obtain ⟨inputs,at_,member⟩ := inside
    simp only [DirRewriter.enter,rewriter] at at_
    split at at_
    next =>
      cases at_
      rw [List.map_singleton,List.mem_singleton] at member
      rw [member]
    next => cases at_
  have founded : WellFounded (Inside rewriter.enter) := ⟨fun i => .intro i fun c first => .intro c fun d second => by
    obtain ⟨inputs,at_,_⟩ := second
    simp only [DirRewriter.enter,rewriter,alone i c first] at at_
    cases at_⟩
  have plain (root' : DirEntry) (member : root' ∈ [root]) :
      Rewrites rewriter (Library.Paths.dot,root') (rewriter.finish (Library.Paths.dot,root') [file]) := by
    rw [List.mem_singleton.mp member]
    have at_ : rewriter.enter (Library.Paths.dot,root) = .children [(Join Library.Paths.dot file.Name,file)] := rfl
    refine .directory at_ (fun _ => .replaced file) (fun c member => ?_) (fun _ _ => rfl) ⟨List.nodup_singleton _,List.nodup_nil⟩
    rw [List.mem_singleton.mp member]
    exact .answer rfl
  exact rewrites_agree Function.injective_id ⟨fun _ _ _ => rfl,fun _ _ _ _ => rfl⟩ founded plain

end Manifests

end Vbe.Snapshots.Rewriting
