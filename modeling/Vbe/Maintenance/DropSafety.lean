import Vbe.Maintenance.SnapshotGC

/-! Contents that are referred to, or may still be, are not dropped: whoever found one before it was
deleted has published it before the second of two runs began, which then brought it back. -/
namespace Vbe.Maintenance

section DropTime
variable {runs : List RunInfo} {safety : SafetyParameters}

/-- A time is that of a run which ended a margin before a later one, and the latest such time. -/
structure SafeDropTime (runs : List RunInfo) (safety : SafetyParameters) (time : Int) : Prop where
  between : ∃ r ∈ runs, ∃ latest ∈ runs, r.Success ∧ latest.Success ∧ r.Start ≤ latest.Start ∧
    latest.Start - r.End > safety.MarginBetweenSnapshotGC ∧ time = r.Start - safety.DropContentFromIndexExtraMargin
  latest : ∀ r ∈ runs, ∀ later ∈ runs, r.Success → later.Success → r.Start < later.Start →
    later.Start - r.End > safety.MarginBetweenSnapshotGC → r.Start - safety.DropContentFromIndexExtraMargin ≤ time

theorem findSafeDropTime_spec (found : findSafeDropTime runs safety ≠ zeroTime) :
    SafeDropTime runs safety (findSafeDropTime runs safety) := by
  have order : ((runs.filter (·.Success)).insertionSort fun r r' => r.Start ≥ r'.Start).Pairwise
      fun r r' => r.Start ≥ r'.Start := List.pairwise_insertionSort _ _
  have perm := List.perm_insertionSort (fun r r' : RunInfo => r.Start ≥ r'.Start) (runs.filter (·.Success))
  have members (r : RunInfo) : r ∈ (runs.filter (·.Success)).insertionSort (fun r r' => r.Start ≥ r'.Start) ↔
      r ∈ runs ∧ r.Success := perm.mem_iff.trans List.mem_filter
  unfold findSafeDropTime at found ⊢
  generalize (runs.filter (·.Success)).insertionSort (fun r r' => r.Start ≥ r'.Start) = sorted at *
  cases sorted with
  | nil => exact absurd rfl found
  | cons latest earlier =>
    obtain ⟨first,rest⟩ := List.pairwise_cons.mp order
    dsimp only at found ⊢
    cases chosen : earlier.find? fun r => decide (latest.Start - r.End > safety.MarginBetweenSnapshotGC) with
    | none =>
      rw [chosen] at found
      exact absurd rfl found
    | some r =>
      dsimp only
      have member := List.mem_of_find?_eq_some chosen
      have margin : latest.Start - r.End > safety.MarginBetweenSnapshotGC := by simpa using List.find?_some chosen
      have known := (members r).mp (List.mem_cons_of_mem latest member)
      have last := (members latest).mp List.mem_cons_self
      refine ⟨⟨r,known.1,latest,last.1,known.2,last.2,first r member,margin,rfl⟩,?_⟩
      intro r' there later there' success success' after margin'
      have latestLater : later.Start ≤ latest.Start := by
        rcases List.mem_cons.mp ((members later).mpr ⟨there',success'⟩) with rfl | behind
        · exact le_rfl
        · exact first later behind
      have inside : r' ∈ earlier := by
        rcases List.mem_cons.mp ((members r').mpr ⟨there,success⟩) with rfl | behind
        · omega
        · exact behind
      obtain ⟨_,before,behind,split,skipped⟩ := List.find?_eq_some_iff_append.mp chosen
      have ordered := (split ▸ rest : (before ++ r :: behind).Pairwise fun r r' => r.Start ≥ r'.Start)
      rw [split] at inside
      rcases List.mem_append.mp inside with early | here
      · have none := skipped r' early
        simp only [Bool.not_eq_true',decide_eq_false_iff_not] at none
        omega
      · rcases List.mem_cons.mp here with rfl | behindIt
        · exact le_rfl
        · have below := (List.pairwise_cons.mp (List.pairwise_append.mp ordered).2.1).1 r' behindIt
          omega

end DropTime

namespace SnapshotGC
open Vbe.Library.Runs

section Resolving
variable {κ : Type} {l l' : List (Entry κ)} {e w : Entry κ}

theorem resolve_mem (found : Entry.resolve l = some e) : e ∈ l := by
  induction l generalizing e with
  | nil => contradiction
  | cons x older ih =>
    rw [Entry.resolve] at found
    split at found
    next => exact Option.some.inj found ▸ List.mem_cons_self
    next w there =>
      split at found
      next => exact Option.some.inj found ▸ List.mem_cons_self
      next => exact Option.some.inj found ▸ List.mem_cons_of_mem _ (ih there)

theorem resolve_none : Entry.resolve l = none ↔ l = [] := by
  cases l with
  | nil => simp [Entry.resolve]
  | cons x older =>
    rw [Entry.resolve]
    split
    next => simp
    next => split <;> simp

theorem not_greater_iff : e.greaterThan w = false ↔ e.TimestampSeconds ≤ w.TimestampSeconds ∧
    (e.TimestampSeconds = w.TimestampSeconds → e.Deleted = false → w.Deleted = false) := by
  unfold Entry.greaterThan
  split
  next differ => simp [differ]
  next same =>
    have equal := not_not.mp same
    simp [equal]

theorem greater_iff : e.greaterThan w = true ↔ w.TimestampSeconds < e.TimestampSeconds ∨
    e.TimestampSeconds = w.TimestampSeconds ∧ e.Deleted = false ∧ w.Deleted = true := by
  unfold Entry.greaterThan
  split
  next differ => simp [differ]
  next same =>
    have equal := not_not.mp same
    simp [equal]

theorem not_greater_trans {v : Entry κ} (under : e.greaterThan v = false) (above : w.greaterThan v = true) :
    e.greaterThan w = false := by
  rw [not_greater_iff] at under ⊢
  rcases greater_iff.mp above with later | ⟨same,live,_⟩
  · exact ⟨by omega,fun equal _ => by omega⟩
  · exact ⟨by omega,fun _ _ => live⟩

/-- No entry is greater than the one that stands for all. -/
theorem not_greater (found : Entry.resolve l = some w) (member : e ∈ l) : e.greaterThan w = false := by
  induction l generalizing w with
  | nil => contradiction
  | cons x older ih =>
    rw [Entry.resolve] at found
    split at found
    next none =>
      obtain rfl := resolve_none.mp none
      obtain rfl := List.mem_singleton.mp member
      cases Option.some.inj found
      simp [Entry.greaterThan]
    next v there =>
      split at found
      next wins =>
        cases Option.some.inj found
        rcases List.mem_cons.mp member with rfl | below
        · simp [Entry.greaterThan]
        · exact not_greater_trans (ih there below) wins
      next loses =>
        cases Option.some.inj found
        rcases List.mem_cons.mp member with rfl | below
        · simpa using loses
        · exact ih there below

/-- Entries of which neither is greater agree. -/
theorem agree (first : e.greaterThan w = false) (second : w.greaterThan e = false) :
    e.TimestampSeconds = w.TimestampSeconds ∧ e.Deleted = w.Deleted := by
  rw [not_greater_iff] at first second
  have same : e.TimestampSeconds = w.TimestampSeconds := le_antisymm first.1 second.1
  refine ⟨same,?_⟩
  cases live : e.Deleted with
  | false => exact (first.2 same live).symm
  | true =>
    cases other : w.Deleted with
    | false => exact absurd (second.2 same.symm other) (by simp [live])
    | true => rfl

end Resolving

section Times
variable {κ : Type}

theorem contentWriteTime_gt (w : World κ) (previous : Int) : previous < w.contentWriteTime previous := by
  unfold World.contentWriteTime
  split <;> omega

theorem now_lt_contentWriteTime (w : World κ) (previous : Int) :
    w.now < w.contentWriteTime previous * second + second := by
  unfold World.contentWriteTime
  have whole : w.now < w.now / second * second + second := by
    unfold second
    omega
  split
  next => exact whole
  next early =>
    unfold second at *
    omega

end Times

section Deletions
variable {κ : Type} [DecidableEq κ] {p : Repository κ} {w w' : World κ} {c c' : κ} {view d : Int} {bi e : Entry κ}

/-- When the deletion of a content was made that stands. -/
def deletion (w : World κ) (c : κ) : Option Int := (w.info c).bind fun e => if e.Deleted then some e.made else none

theorem deletion_iff : deletion w c = some d ↔ ∃ e, w.info c = some e ∧ e.Deleted ∧ e.made = d := by
  simp [deletion,Option.bind_eq_some_iff]

theorem info_mem (found : w.info c = some e) : e ∈ w.index ∧ e.ContentID = c := by
  simpa using List.mem_filter.mp (resolve_mem found)

theorem infoAt_mem (found : w.infoAt view c = some e) : e ∈ w.index ∧ e.ContentID = c ∧ e.made ≤ view := by
  simpa using List.mem_filter.mp (resolve_mem found)

/-- The entry that stands for a content stands for it in every older state that has it. -/
theorem infoAt_agree (found : w.info c = some e) (old : e.made ≤ view) : ∃ bi, w.infoAt view c = some bi ∧
    bi.TimestampSeconds = e.TimestampSeconds ∧ bi.Deleted = e.Deleted := by
  obtain ⟨member,same⟩ := info_mem found
  have inside : e ∈ w.index.filter fun e => e.ContentID = c && e.made ≤ view :=
    List.mem_filter.mpr ⟨member,by simp [same,old]⟩
  cases seen : w.infoAt view c with
  | none => exact absurd (resolve_none.mp seen ▸ inside) List.not_mem_nil
  | some bi =>
    obtain ⟨there,named,_⟩ := infoAt_mem seen
    have above := not_greater found (List.mem_filter.mpr ⟨there,by simpa using named⟩)
    exact ⟨bi,rfl,agree above (not_greater seen inside)⟩

/-- A content that is seen to be live was deleted later, if it is deleted. -/
theorem deleted_later (seen : w.infoAt view c = some bi) (live : bi.Deleted = false) (deleted : deletion w c = some d) :
    view < d := by
  obtain ⟨e,found,isDeleted,rfl⟩ := deletion_iff.mp deleted
  by_contra early
  obtain ⟨bi',same,_,agrees⟩ := infoAt_agree found (not_lt.mp early)
  cases seen.symm.trans same
  rw [live,isDeleted] at agrees
  contradiction

/-- The deletions of a state were there before, or are as new as what may be unseen. -/
def Later (p : Repository κ) (w w' : World κ) : Prop :=
  ∀ c d, deletion w' c = some d → deletion w c = some d ∨ w'.now ≤ d + p.lag

/-- The entry that stands after one was added is the one before or the new one. -/
theorem info_add {previous : Int} {deleted : Bool} (found : (w.add c previous deleted).info c' = some e) :
    w.info c' = some e ∨ c' = c ∧ e.Deleted = deleted ∧ e.made = w.now ∧
      e.TimestampSeconds = w.contentWriteTime previous := by
  unfold World.info World.add at found
  simp only [List.filter_cons] at found
  split at found
  next same =>
    simp only [decide_eq_true_eq] at same
    rw [Entry.resolve] at found
    split at found
    next => exact Or.inr (Option.some.inj found ▸ ⟨same.symm,rfl,rfl,rfl⟩)
    next v there =>
      split at found
      next => exact Or.inr (Option.some.inj found ▸ ⟨same.symm,rfl,rfl,rfl⟩)
      next => exact Or.inl (Option.some.inj found ▸ there)
  next => exact Or.inl found

theorem later_add (enough : 0 ≤ p.lag) (previous : Int) (deleted : Bool) : Later p w (w.add c previous deleted) := by
  intro c' d after
  obtain ⟨e,found,isDeleted,rfl⟩ := deletion_iff.mp after
  rcases info_add found with old | ⟨_,_,new,_⟩
  · exact Or.inl (deletion_iff.mpr ⟨e,old,isDeleted,rfl⟩)
  · right
    change w.now ≤ _
    omega

/-- A content that was brought back was deleted later than seen, if it is deleted. -/
theorem undeleted_later (back : w.UndeleteContent c view = some w') (deleted : deletion w' c = some d) : view < d := by
  obtain ⟨bi,seen,after⟩ := Option.map_eq_some_iff.mp back
  split at after
  next wasDeleted =>
    subst after
    obtain ⟨e,found,isDeleted,rfl⟩ := deletion_iff.mp deleted
    rcases info_add found with old | ⟨_,live,_,_⟩
    · by_contra early
      obtain ⟨bi',same,time,_⟩ := infoAt_agree old (not_lt.mp early)
      cases seen.symm.trans same
      have above := not_greater found (List.mem_filter.mpr ⟨List.mem_cons_self,by simp⟩)
      have beaten := (not_greater_iff.mp above).1
      have greater := contentWriteTime_gt w bi.TimestampSeconds
      simp only at beaten
      omega
    · exact absurd isDeleted (by simp [live])
  next live =>
    subst after
    exact deleted_later seen (by simpa using live) deleted

/-- A content that was written or found was deleted later than seen, if it is deleted. -/
theorem written_later (deleted : deletion (written w c view) c = some d) : view < d := by
  unfold written at deleted
  cases seen : w.infoAt view c with
  | some bi =>
    have back : w.UndeleteContent c view = some (if bi.Deleted then w.add c bi.TimestampSeconds false else w) := by
      rw [World.UndeleteContent,seen]
      rfl
    rw [seen] at deleted
    exact undeleted_later back deleted
  | none =>
    rw [seen] at deleted
    obtain ⟨e,found,isDeleted,rfl⟩ := deletion_iff.mp deleted
    rcases info_add found with old | ⟨_,live,_,_⟩
    · by_contra early
      obtain ⟨bi,some,_⟩ := infoAt_agree old (not_lt.mp early)
      cases seen.symm.trans some
    · exact absurd isDeleted (by simp [live])

end Deletions

section Invariant
variable {κ : Type} [DecidableEq κ] {p : Repository κ} {w w' : World κ} {start : Int}

/-- What was published before a time is not deleted, or was deleted at about that time or later. -/
def Covered (p : Repository κ) (w : World κ) (start : Int) : Prop :=
  ∀ m ∈ w.manifests, m.published < start → ∀ c ∈ m.contents, ∀ d, deletion w c = some d → start ≤ d + p.lag

def Uses (w : World κ) (start : Int) (used : List κ) : Prop :=
  ∀ m ∈ w.manifests, m.published < start → ∀ c ∈ m.contents, c ∈ used

/-- A run knows what was published before it began, and has yet to come to what is deleted of it. -/
def Phase.Sound (p : Repository κ) (w : World κ) (start : Int) : Phase κ → Prop
  | .starting => True
  | .found used => Uses w start used
  | .iterating used left _ => Uses w start used ∧
    ∀ c ∈ used, ∀ d, deletion w c = some d → start ≤ d + p.lag ∨ ∃ ci ∈ left, ci.ContentID = c ∧ ci.Deleted

structure Inv (p : Repository κ) (w : World κ) : Prop where
  system : ∀ e ∈ w.index, e.Deleted → p.system e.ContentID = false
  stamped : ∀ e ∈ w.index, e.made < e.Timestamp + second
  writers : ∀ k c t, (c,t) ∈ w.writers k → t ≤ w.now ∧ ∀ d, deletion w c = some d → t ≤ d + p.lag
  manifests : ∀ m ∈ w.manifests, m.published ≤ w.now ∧ ∀ c ∈ m.contents, 0 < p.safety.MarginBetweenSnapshotGC ∧
    ∀ d, deletion w c = some d → m.published < d + p.lag + p.safety.MarginBetweenSnapshotGC
  reported : ∀ r ∈ w.reported, r.Start ≤ r.End ∧ r.End ≤ w.now ∧ (r.Success → Covered p w r.Start)
  running : ∀ k g, w.runs k = some g → g.Start ≤ w.now ∧ g.phase.Sound p w g.Start
  kept : ∀ r ∈ w.schedule.Runs .SnapshotGarbageCollection, r ∈ w.reported

theorem Covered.later (covered : Covered p w start) (later : Later p w w') (begun : start ≤ w'.now)
    (fewer : ∀ m ∈ w'.manifests, m.published < start → m ∈ w.manifests) : Covered p w' start := by
  intro m member early c inside d deleted
  rcases later c d deleted with old | new
  · exact covered m (fewer m member early) early c inside d old
  · exact begun.trans new

omit [DecidableEq κ] in
theorem Uses.fewer {used : List κ} (uses : Uses w start used)
    (fewer : ∀ m ∈ w'.manifests, m.published < start → m ∈ w.manifests) : Uses w' start used :=
  fun m member early => uses m (fewer m member early) early

theorem Phase.Sound.later {phase : Phase κ} (sound : phase.Sound p w start) (later : Later p w w') (begun : start ≤ w'.now)
    (fewer : ∀ m ∈ w'.manifests, m.published < start → m ∈ w.manifests) : phase.Sound p w' start := by
  cases phase with
  | starting => trivial
  | found used => exact Uses.fewer sound fewer
  | iterating used left unused =>
    refine ⟨Uses.fewer sound.1 fewer,fun c member d deleted => ?_⟩
    rcases later c d deleted with old | new
    · exact sound.2 c member d old
    · exact Or.inl (begun.trans new)

/-- What is deleted anew, or no longer published, breaks nothing. -/
theorem Inv.later (inv : Inv p w) (later : Later p w w') (now : w.now ≤ w'.now)
    (system : ∀ e ∈ w'.index, e.Deleted → p.system e.ContentID = false)
    (stamped : ∀ e ∈ w'.index, e.made < e.Timestamp + second) (writers : w'.writers = w.writers)
    (manifests : ∀ m ∈ w'.manifests, m ∈ w.manifests) (reported : w'.reported = w.reported) (runs : w'.runs = w.runs)
    (schedule : w'.schedule = w.schedule) : Inv p w' where
  system := system
  stamped := stamped
  writers k c t member := by
    obtain ⟨past,bound⟩ := inv.writers k c t (writers ▸ member)
    refine ⟨past.trans now,fun d deleted => ?_⟩
    rcases later c d deleted with old | new
    · exact bound d old
    · exact (past.trans now).trans new
  manifests m member := by
    obtain ⟨past,bound⟩ := inv.manifests m (manifests m member)
    refine ⟨past.trans now,fun c inside => ⟨(bound c inside).1,fun d deleted => ?_⟩⟩
    have positive := (bound c inside).1
    rcases later c d deleted with old | new
    · exact (bound c inside).2 d old
    · omega
  reported r member := by
    obtain ⟨forward,past,covered⟩ := inv.reported r (reported ▸ member)
    exact ⟨forward,past.trans now,fun success =>
      (covered success).later later (by omega) fun m there _ => manifests m there⟩
  running k g there := by
    obtain ⟨past,sound⟩ := inv.running k g (runs ▸ there)
    exact ⟨past.trans now,sound.later later (past.trans now) fun m member _ => manifests m member⟩
  kept r member := by
    rw [reported]
    rw [schedule] at member
    exact inv.kept r member

theorem Inv.add (inv : Inv p w) (enough : 0 ≤ p.lag) (c : κ) (previous : Int) (deleted : Bool)
    (allowed : deleted = true → p.system c = false) : Inv p (w.add c previous deleted) := by
  refine inv.later (later_add enough previous deleted) (Int.le_refl _) ?_ ?_ rfl (fun _ => id) rfl rfl rfl
  · intro e member isDeleted
    rcases List.mem_cons.mp member with rfl | old
    · exact allowed isDeleted
    · exact inv.system e old isDeleted
  · intro e member
    rcases List.mem_cons.mp member with rfl | old
    · exact now_lt_contentWriteTime w previous
    · exact inv.stamped e old

omit [DecidableEq κ] in
theorem runs_goes_self (w : World κ) (k : Nat) (run : Option (GC κ)) : (w.goes k run).runs k = run :=
  Function.update_self ..

omit [DecidableEq κ] in
theorem runs_goes {k k' : Nat} (w : World κ) (run : Option (GC κ)) (other : k' ≠ k) :
    (w.goes k run).runs k' = w.runs k' := Function.update_of_ne other ..

/-- A run begins or goes on. -/
theorem Inv.goes {k : Nat} {g : GC κ} (inv : Inv p w) (begun : g.Start ≤ w.now) (sound : g.phase.Sound p w g.Start) :
    Inv p (w.goes k (some g)) where
  system := inv.system
  stamped := inv.stamped
  writers := inv.writers
  manifests := inv.manifests
  reported := inv.reported
  kept := inv.kept
  running k' g' there := by
    by_cases same : k' = k
    · subst same
      cases (runs_goes_self w k' (some g)).symm.trans there
      exact ⟨begun,sound⟩
    · exact inv.running k' g' ((runs_goes w (some g) same).symm.trans there)

/-- A run ends, and is reported as successful only if it covers what was published before it. -/
theorem Inv.report {k : Nat} {g : GC κ} {success : Bool} (inv : Inv p w) (begun : g.Start ≤ w.now)
    (covered : success = true → Covered p w g.Start) : Inv p (w.report k g success) where
  system := inv.system
  stamped := inv.stamped
  writers := inv.writers
  manifests := inv.manifests
  reported r member := by
    rcases List.mem_cons.mp member with rfl | old
    · exact ⟨begun,Int.le_refl _,covered⟩
    · exact inv.reported r old
  running k' g' there := by
    by_cases same : k' = k
    · subst same
      cases (runs_goes_self w k' none).symm.trans there
    · exact inv.running k' g' ((runs_goes w none same).symm.trans there)
  kept r member := by
    change r ∈ (⟨g.Start,w.now,success⟩ :: w.schedule.Runs .SnapshotGarbageCollection).take _ at member
    rcases List.mem_cons.mp (List.mem_of_mem_take member) with rfl | old
    · exact List.mem_cons_self
    · exact List.mem_cons_of_mem _ (inv.kept r old)

end Invariant

section Steps
variable {κ : Type} [DecidableEq κ] {p : Repository κ} {w w' : World κ}

omit [DecidableEq κ] in
theorem sees_iff {view : Int} : w.sees p view = true ↔ view ≤ w.now ∧ w.now - view ≤ p.lag := by
  simp [World.sees]

theorem Inv.UndeleteContent {c : κ} {view : Int} (inv : Inv p w) (enough : 0 ≤ p.lag)
    (back : w.UndeleteContent c view = some w') : Inv p w' := by
  obtain ⟨bi,_,after⟩ := Option.map_eq_some_iff.mp back
  split at after
  next => exact after ▸ inv.add enough c _ false (fun never => absurd never (by decide))
  next => exact after ▸ inv

theorem Inv.DeleteContent {c : κ} {view : Int} (inv : Inv p w) (enough : 0 ≤ p.lag) (allowed : p.system c = false)
    (gone : w.DeleteContent c view = some w') : Inv p w' := by
  obtain ⟨bi,_,after⟩ := Option.map_eq_some_iff.mp gone
  split at after
  next => exact after ▸ inv
  next => exact after ▸ inv.add enough c _ true fun _ => allowed

theorem Inv.written {c : κ} {view : Int} (inv : Inv p w) (enough : 0 ≤ p.lag) : Inv p (written w c view) := by
  unfold SnapshotGC.written
  split
  next =>
    split
    next => exact inv.add enough c _ false (fun never => absurd never (by decide))
    next => exact inv
  next => exact inv.add enough c _ false (fun never => absurd never (by decide))

theorem written_frame (c : κ) (view : Int) : (written w c view).now = w.now ∧ (written w c view).writers = w.writers := by
  unfold written
  split
  next => split <;> exact ⟨rfl,rfl⟩
  next => exact ⟨rfl,rfl⟩

theorem Inv.WriteContent {k : Nat} {c : κ} {view : Int} (inv : Inv p w) (enough : 0 ≤ p.lag) (seen : w.sees p view = true) :
    Inv p (WriteContent w k c view) := by
  obtain ⟨past,recent⟩ := sees_iff.mp seen
  obtain ⟨now,writers⟩ := written_frame (w := w) c view
  have sound : Inv p (SnapshotGC.written w c view) := inv.written enough
  refine ⟨sound.system,sound.stamped,fun k' c' t member => ?_,sound.manifests,sound.reported,sound.running,sound.kept⟩
  change (c',t) ∈ Function.update w.writers k ((c,w.now) :: w.writers k) k' at member
  have old (there : (c',t) ∈ w.writers k') := sound.writers k' c' t (writers ▸ there)
  by_cases same : k' = k
  · subst same
    rw [Function.update_self] at member
    rcases List.mem_cons.mp member with equal | there
    · cases equal
      refine ⟨now ▸ le_rfl,fun d deleted => ?_⟩
      have later : view < d := written_later deleted
      omega
    · exact old there
  · rw [Function.update_of_ne same] at member
    exact old member

/-- What is published was written or found less than a margin ago. -/
theorem mayPublish_iff {k : Nat} {c : κ} : mayPublish p w k c = true ↔
    ∃ t, (c,t) ∈ w.writers k ∧ w.now < t + p.safety.MarginBetweenSnapshotGC := by
  simp [mayPublish]

theorem Inv.publish {k : Nat} {contents : List κ} (inv : Inv p w) (may : ∀ c ∈ contents, mayPublish p w k c = true) :
    Inv p { w with manifests := ⟨contents,w.now⟩ :: w.manifests } := by
  have fewer (start : Int) (begun : start ≤ w.now) : ∀ m ∈ (⟨contents,w.now⟩ :: w.manifests : List (Manifest κ)),
      m.published < start → m ∈ w.manifests := by
    intro m member early
    rcases List.mem_cons.mp member with rfl | old
    · exact absurd early (not_lt.mpr begun)
    · exact old
  refine ⟨inv.system,inv.stamped,inv.writers,fun m member => ?_,fun r member => ?_,fun k' g there => ?_,inv.kept⟩
  · rcases List.mem_cons.mp member with rfl | old
    · refine ⟨le_rfl,fun c inside => ?_⟩
      obtain ⟨t,found,soon⟩ := mayPublish_iff.mp (may c inside)
      obtain ⟨past,bound⟩ := inv.writers k c t found
      refine ⟨by omega,fun d deleted => ?_⟩
      have early := bound d deleted
      change w.now < _
      omega
    · exact inv.manifests m old
  · obtain ⟨forward,past,covered⟩ := inv.reported r member
    exact ⟨forward,past,fun success => (covered success).later (fun _ _ => Or.inl) (forward.trans past) (fewer r.Start (forward.trans past))⟩
  · obtain ⟨past,sound⟩ := inv.running k' g there
    exact ⟨past,sound.later (fun _ _ => Or.inl) past (fewer g.Start past)⟩

/-- A content that is dropped has no deletion that stands, and the others keep theirs. -/
theorem later_drop (time : Int) : Later p w (DropDeletedContents w time) := by
  intro c d deleted
  left
  unfold DropDeletedContents at deleted
  split at deleted
  next => exact deleted
  next =>
    by_cases gone : droppable w time c = true
    · have none : (w.index.filter fun e => !droppable w time e.ContentID).filter (fun e => e.ContentID = c) = [] := by
        rw [List.filter_filter,List.filter_eq_nil_iff]
        intro e _
        by_cases same : e.ContentID = c
        · simp [same,gone]
        · simp [same]
      rw [deletion,World.info,none] at deleted
      cases deleted
    · have same : (w.index.filter fun e => !droppable w time e.ContentID).filter (fun e => e.ContentID = c) =
          w.index.filter fun e => e.ContentID = c := by
        rw [List.filter_filter]
        refine List.filter_congr fun e _ => ?_
        by_cases same : e.ContentID = c
        · simp [same,gone]
        · simp [same]
      rw [deletion,World.info,same] at deleted
      exact deleted

theorem Inv.drop (inv : Inv p w) (time : Int) : Inv p (DropDeletedContents w time) := by
  have fewer : ∀ e ∈ (DropDeletedContents w time).index, e ∈ w.index := by
    intro e member
    unfold DropDeletedContents at member
    split at member
    next => exact member
    next => exact (List.mem_filter.mp member).1
  have later : Later p w (DropDeletedContents w time) := later_drop time
  have frame : DropDeletedContents w time = { w with index := (DropDeletedContents w time).index } := by
    unfold DropDeletedContents
    split <;> rfl
  rw [frame] at later fewer ⊢
  exact inv.later later (Int.le_refl _) (fun e member => inv.system e (fewer e member))
    (fun e member => inv.stamped e (fewer e member)) rfl (fun _ => id) rfl rfl rfl

theorem deletion_system {c : κ} {d : Int} (inv : Inv p w) (deleted : deletion w c = some d) : p.system c = false := by
  obtain ⟨e,found,isDeleted,_⟩ := deletion_iff.mp deleted
  obtain ⟨member,same⟩ := info_mem found
  exact same ▸ inv.system e member isDeleted

/-- A run that begins to go through the contents comes to all that are deleted by then. -/
theorem iterating_sound {start view : Int} {used : List κ} (uses : Uses w start used) (begun : start ≤ w.now)
    (seen : w.sees p view = true) :
    (Phase.iterating used (w.index.filter fun e => w.infoAt view e.ContentID = some e) 0).Sound p w start := by
  obtain ⟨_,recent⟩ := sees_iff.mp seen
  refine ⟨uses,fun c _ d deleted => ?_⟩
  obtain ⟨e,found,isDeleted,rfl⟩ := deletion_iff.mp deleted
  by_cases old : e.made ≤ view
  · obtain ⟨bi,same,_,agrees⟩ := infoAt_agree found old
    obtain ⟨member,named,_⟩ := infoAt_mem same
    refine Or.inr ⟨bi,List.mem_filter.mpr ⟨member,?_⟩,named,agrees.trans isDeleted⟩
    rw [named]
    exact decide_eq_true same
  · left
    omega

structure Visited (p : Repository κ) (w w' : World κ) (used : List κ) (ci : Entry κ) (view : Int) : Prop where
  inv : Inv p w'
  now : w'.now = w.now
  manifests : w'.manifests = w.manifests
  later : Later p w w'
  back : ci.ContentID ∈ used → ci.Deleted → p.system ci.ContentID = false → ∀ d, deletion w' ci.ContentID = some d → view < d

theorem visit_spec {g : GC κ} {used : List κ} {unused n : Nat} {ci : Entry κ} {view : Int} (inv : Inv p w)
    (enough : 0 ≤ p.lag) (visited : visit p w g used unused ci view = some (w',n)) : Visited p w w' used ci view := by
  have idle (spared : ci.ContentID ∈ used → ci.Deleted → p.system ci.ContentID = false → False) : Visited p w w used ci view :=
    ⟨inv,rfl,rfl,fun _ _ => Or.inl,fun inside deleted other => absurd (spared inside deleted other) id⟩
  unfold visit at visited
  split at visited
  next system =>
    cases visited
    exact idle fun _ _ other => by simp [system] at other
  next other =>
    split at visited
    next inside =>
      split at visited
      next =>
        obtain ⟨v,undeleted,same⟩ := Option.map_eq_some_iff.mp visited
        cases same
        have after := inv.UndeleteContent enough undeleted
        have back (d : Int) : deletion w' ci.ContentID = some d → view < d := undeleted_later undeleted
        obtain ⟨bi,_,shape⟩ := Option.map_eq_some_iff.mp undeleted
        split at shape
        next =>
          subst shape
          exact ⟨after,rfl,rfl,later_add enough _ _,fun _ _ _ => back⟩
        next =>
          subst shape
          exact ⟨after,rfl,rfl,fun _ _ => Or.inl,fun _ _ _ => back⟩
      next live =>
        cases visited
        exact idle fun _ deleted _ => live deleted
    next outside =>
      split at visited
      next =>
        cases visited
        exact idle fun inside _ _ => outside inside
      next =>
        split at visited
        next =>
          obtain ⟨v,deleted,same⟩ := Option.map_eq_some_iff.mp visited
          cases same
          have after := inv.DeleteContent enough (by simpa using other) deleted
          obtain ⟨bi,_,shape⟩ := Option.map_eq_some_iff.mp deleted
          split at shape
          next =>
            subst shape
            exact ⟨after,rfl,rfl,fun _ _ => Or.inl,fun inside => absurd inside outside⟩
          next =>
            subst shape
            exact ⟨after,rfl,rfl,later_add enough _ _,fun inside => absurd inside outside⟩
        next =>
          cases visited
          exact idle fun inside _ _ => outside inside

/-- What a run has come to is live, or was deleted since. -/
theorem visited_sound {start view : Int} {used : List κ} {left : List (Entry κ)} {unused n : Nat} {ci : Entry κ} (inv : Inv p w)
    (sound : (Phase.iterating used left unused).Sound p w start) (begun : start ≤ w.now) (seen : w.sees p view = true)
    (visited : Visited p w w' used ci view) : (Phase.iterating used (left.erase ci) n).Sound p w' start := by
  obtain ⟨_,recent⟩ := sees_iff.mp seen
  refine ⟨Uses.fewer sound.1 fun m member _ => visited.manifests ▸ member,fun c inside d deleted => ?_⟩
  rcases visited.later c d deleted with old | new
  · rcases sound.2 c inside d old with late | ⟨cj,member,rfl,isDeleted⟩
    · exact Or.inl late
    · by_cases same : cj = ci
      · subst same
        have after := visited.back inside isDeleted (deletion_system inv old) d deleted
        left
        omega
      · exact Or.inr ⟨cj,(List.mem_erase_of_ne same).mpr member,rfl,isDeleted⟩
  · exact Or.inl (begun.trans (visited.now ▸ new))

theorem Inv.step (inv : Inv p w) (enough : 0 ≤ p.lag) (l : Label κ) (taken : step p w l = some w') : Inv p w' := by
  cases l with
  | passes time =>
    cases taken
    have now : w.now ≤ w.now + time := by omega
    exact inv.later (fun _ _ => Or.inl) now inv.system inv.stamped rfl (fun _ => id) rfl rfl rfl
  | WriteContent k c view =>
    obtain ⟨seen,after⟩ := Option.ite_none_right_eq_some.mp taken
    cases after
    exact inv.WriteContent enough seen
  | publish k contents =>
    obtain ⟨may,after⟩ := Option.ite_none_right_eq_some.mp taken
    cases after
    exact inv.publish (by simpa using may)
  | forget i =>
    cases taken
    exact inv.later (fun _ _ => Or.inl) (Int.le_refl _) inv.system inv.stamped rfl
      (fun _ member => List.mem_of_mem_eraseIdx member) rfl rfl rfl
  | RewriteContent c view =>
    obtain ⟨seen,after⟩ := Option.ite_none_right_eq_some.mp taken
    obtain ⟨bi,found,rfl⟩ := Option.map_eq_some_iff.mp after
    obtain ⟨member,rfl,_⟩ := infoAt_mem found
    exact inv.add enough bi.ContentID _ _ (inv.system bi member)
  | begins k gcDelete maintenanceStartTime =>
    simp only [SnapshotGC.step] at taken
    split at taken
    next =>
      cases taken
      exact inv.goes (Int.le_refl _) trivial
    next => cases taken
  | findInUseContentIDs k =>
    simp only [SnapshotGC.step] at taken
    split at taken
    next Start gcDelete maintenanceStartTime running =>
      cases taken
      have uses : Uses w Start (w.manifests.flatMap (·.contents)) := fun m member _ c inside =>
        List.mem_flatMap.mpr ⟨m,member,inside⟩
      exact inv.goes (inv.running k _ running).1 uses
    next => cases taken
  | IterateContents k view =>
    simp only [SnapshotGC.step] at taken
    split at taken
    next Start gcDelete maintenanceStartTime used running =>
      obtain ⟨seen,after⟩ := Option.ite_none_right_eq_some.mp taken
      cases after
      obtain ⟨begun,uses⟩ := inv.running k _ running
      exact inv.goes begun (iterating_sound uses begun seen)
    next => cases taken
  | visit k ci view =>
    simp only [SnapshotGC.step] at taken
    split at taken
    next Start gcDelete maintenanceStartTime used left unused running =>
      obtain ⟨both,after⟩ := Option.ite_none_right_eq_some.mp taken
      obtain ⟨⟨v,n⟩,visits,rfl⟩ := Option.map_eq_some_iff.mp after
      obtain ⟨begun,sound⟩ := inv.running k _ running
      have visited := visit_spec inv enough visits
      have seen : w.sees p view = true := by simp_all
      refine visited.inv.goes ?_ (visited_sound inv sound begun seen visited)
      rw [visited.now]
      exact begun
    next => cases taken
  | ends k =>
    simp only [SnapshotGC.step] at taken
    split at taken
    next Start gcDelete maintenanceStartTime used unused running =>
      obtain ⟨_,after⟩ := Option.ite_none_right_eq_some.mp taken
      cases after
      obtain ⟨begun,uses,all⟩ := inv.running k _ running
      refine inv.report begun fun _ m member early c inside d deleted => ?_
      rcases all c (uses m member early c inside) d deleted with late | ⟨_,none,_⟩
      · exact late
      · cases none
    next => cases taken
  | fails k =>
    obtain ⟨g,running,rfl⟩ := Option.map_eq_some_iff.mp taken
    exact inv.report (inv.running k g running).1 fun never => absurd never (by decide)
  | DropDeletedContents runs =>
    obtain ⟨_,after⟩ := Option.ite_none_right_eq_some.mp taken
    cases after
    exact inv.drop _

theorem inv_empty (now : Int) : Inv p (World.empty now : World κ) where
  system _ never := absurd never List.not_mem_nil
  stamped _ never := absurd never List.not_mem_nil
  writers _ _ _ never := absurd never List.not_mem_nil
  manifests _ never := absurd never List.not_mem_nil
  reported _ never := absurd never List.not_mem_nil
  running _ _ never := nomatch never
  kept _ never := absurd never List.not_mem_nil

/-- Below a safe time nothing is deleted that is referred to, or still may be. -/
theorem Inv.spared {runs : List RunInfo} {time : Int} {c : κ} {i : Entry κ} (inv : Inv p w) (known : ∀ r ∈ runs, r ∈ w.reported)
    (safe : SafeDropTime runs p.safety time) (found : w.info c = some i) (isDeleted : i.Deleted) (early : i.Timestamp < time) :
    (∀ m ∈ w.manifests, c ∉ m.contents) ∧ ∀ k, mayPublish p w k c = false := by
  obtain ⟨r,member,latest,member',_,success,_,margin,rfl⟩ := safe.between
  obtain ⟨forward,_,_⟩ := inv.reported r (known r member)
  obtain ⟨forward',past,covered⟩ := inv.reported latest (known latest member')
  have deleted : deletion w c = some i.made := deletion_iff.mpr ⟨i,found,isDeleted,rfl⟩
  have stamped := inv.stamped i (info_mem found).1
  have before : i.made + p.lag < r.Start := by
    unfold Repository.lag
    omega
  constructor
  · intro m there inside
    obtain ⟨positive,bound⟩ := (inv.manifests m there).2 c inside
    have published := bound i.made deleted
    have late := covered success m there (by omega) c inside i.made deleted
    omega
  · intro k
    by_contra may
    obtain ⟨t,there,soon⟩ := mayPublish_iff.mp (Bool.of_not_eq_false may)
    have bound := (inv.writers k c t there).2 i.made deleted
    omega

/-- Full safety: hours and days in nanoseconds. -/
def full : Repository Nat := ⟨⟨true,14400000000000,3600000000000,3600000000000⟩,86400000000000,fun _ => false⟩

def collects (k : Nat) (visits : List (Label Nat)) (view : Int) : List (Label Nat) :=
  [.begins k true view,.findInUseContentIDs k,.IterateContents k view] ++ visits ++ [.ends k]

/-- A content that nobody refers to is deleted a day and an hour later, and found deleted by two more runs. -/
def collected : List (Label Nat) :=
  let written : Entry Nat := ⟨7,0,false,0⟩
  let deleted : Entry Nat := ⟨7,90000,true,90000000000000⟩
  [.WriteContent 0 7 0,.passes 90000000000000] ++ collects 0 [.visit 0 written 90000000000000] 90000000000000 ++
    [.passes 7200000000000] ++ collects 1 [.visit 1 deleted 97200000000000] 97200000000000 ++
    [.passes 18000000000000] ++ collects 2 [.visit 2 deleted 115200000000000] 115200000000000

end Steps

end SnapshotGC

end Vbe.Maintenance
