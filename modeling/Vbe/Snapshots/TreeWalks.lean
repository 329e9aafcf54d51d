import Mathlib.Data.List.Nodup
import Vbe.Snapshots.TreeWalker

/-! What holds whenever goroutines walk over snapshot trees: which objects are still to be visited, and which errors are known. -/
namespace Vbe.Snapshots.Walking
open Vbe.Index (Bytes)
open Vbe.Objects (ID EmptyID)
open Vbe.Library

variable {ε : Type} {options : TreeWalkerOptions} {Join : String → String → String}

section Actions

def TreeWalker.add (w : TreeWalker ε) (e : Entry) : TreeWalker ε := { w with enqueued := w.enqueued ++ [e.oid.String] }

/-- All that a goroutine can do from a place. -/
inductive Acts (options : TreeWalkerOptions) (Join : String → String → String) (w : TreeWalker ε) (shared : Bool)
    (started : List (Task ε)) : Place ε → TreeWalker ε → Place ε → List (Task ε) → Event ε → Prop
  | unidentified (e entryPath) (empty : e.oid = EmptyID) :
    Acts options Join w shared started (.process e entryPath) w (.returned .noObjectID) [] .silent
  | known (e entryPath) (known : e.oid.String ∈ w.enqueued) :
    Acts options Join w shared started (.process e entryPath) w (.returned .nil) [] .silent
  | enter (e entryPath) (unknown : e.oid.String ∉ w.enqueued) :
    Acts options Join w shared started (.process e entryPath) (w.add e) .processing [⟨false,.processEntry e entryPath⟩] .silent
  | answer (all : ∀ b ∈ started, b.done = true) : Acts options Join w shared started .processing w (.returned w.Err) [] .silent
  | refused (e entryPath err) : Acts options Join w shared started (.processEntry e entryPath) (w.ReportError options err) .leave []
      (.callback e entryPath (some err))
  | called (name oid entryPath) : Acts options Join w shared started (.processEntry (.leaf name oid) entryPath) w .leave []
      (.callback (.leaf name oid) entryPath none)
  | opened (name oid entries entryPath) : Acts options Join w shared started (.processEntry (.directory name oid entries) entryPath)
      w (.processDirEntry entries entryPath) [] (.callback (.directory name oid entries) entryPath none)
  | unread (entries entryPath err) : Acts options Join w shared started (.processDirEntry entries entryPath)
      (w.ReportError options err) .close [] (.unread err)
  | iterate (entries entryPath) : Acts options Join w shared started (.processDirEntry entries entryPath)
      w (.next entries entryPath) [] .silent
  | stuck (left entryPath err) : Acts options Join w shared started (.next left entryPath)
      (w.ReportError options err) .close [] (.unread err)
  | last (entryPath) : Acts options Join w shared started (.next [] entryPath) w .close [] .silent
  | next (ent left entryPath) : Acts options Join w shared started (.next (ent :: left) entryPath)
      w (.check ent left entryPath) [] .silent
  | enough (ent left entryPath) (many : w.numErrors ≠ 0) : Acts options Join w shared started (.check ent left entryPath)
      w .close [] .silent
  | checked (ent left entryPath) : Acts options Join w shared started (.check ent left entryPath)
      w (.put ent left entryPath) [] .silent
  | skip (ent left entryPath) (known : ent.oid.String ∈ w.enqueued) :
    Acts options Join w shared started (.put ent left entryPath) w (.next left entryPath) [] .silent
  | put (ent left entryPath) (unknown : ent.oid.String ∉ w.enqueued) :
    Acts options Join w shared started (.put ent left entryPath) (w.add ent) (.share ent left entryPath) [] .silent
  | share (ent left entryPath) (free : w.semaphore < options.numWorkers) :
    Acts options Join w shared started (.share ent left entryPath) { w with semaphore := w.semaphore + 1 } (.next left entryPath)
      [⟨true,.processEntry ent (Join entryPath ent.name)⟩] .silent
  | alone (ent left entryPath) : Acts options Join w shared started (.share ent left entryPath) w (.child left entryPath)
      [⟨false,.processEntry ent (Join entryPath ent.name)⟩] .silent
  | resume (left entryPath) : Acts options Join w shared started (.child left entryPath) w (.next left entryPath) [] .silent
  | close (all : ∀ b ∈ started, b.done = true) : Acts options Join w shared started .close w .leave [] .silent
  | ended : Acts options Join w shared started .leave (w.release shared) .ended [] .silent

theorem acts {w : TreeWalker ε} {t : Task ε} {started : List (Task ε)} {failing : Option ε}
    {r : Family.Action (TreeWalker ε) (Task ε) (Event ε)} (acted : act options Join w t started failing = some r) :
    Acts options Join w t.shared started t.place r.shared r.label.place r.new r.event ∧ r.label.shared = t.shared := by
  obtain ⟨shared,place⟩ := t
  cases place with
  | process e entryPath =>
    simp only [act,TreeWalker.alreadyProcessed] at acted
    split at acted
    next empty =>
      cases acted
      exact ⟨.unidentified e entryPath empty,rfl⟩
    next =>
      by_cases known : e.oid.String ∈ w.enqueued
      · rw [if_pos known] at acted
        cases acted
        exact ⟨.known e entryPath known,rfl⟩
      · rw [if_neg known] at acted
        cases acted
        exact ⟨.enter e entryPath known,rfl⟩
  | processing =>
    simp only [act] at acted
    split at acted
    next all =>
      cases acted
      exact ⟨.answer (List.all_eq_true.mp all),rfl⟩
    next => contradiction
  | returned => contradiction
  | processEntry e entryPath =>
    cases failing with
    | some err =>
      cases acted
      exact ⟨.refused e entryPath err,rfl⟩
    | none =>
      cases e with
      | leaf name oid =>
        cases acted
        exact ⟨.called name oid entryPath,rfl⟩
      | directory name oid entries =>
        cases acted
        exact ⟨.opened name oid entries entryPath,rfl⟩
  | processDirEntry entries entryPath =>
    cases failing with
    | some err =>
      cases acted
      exact ⟨.unread entries entryPath err,rfl⟩
    | none =>
      cases acted
      exact ⟨.iterate entries entryPath,rfl⟩
  | next left entryPath =>
    cases failing with
    | some err =>
      cases acted
      exact ⟨.stuck left entryPath err,rfl⟩
    | none =>
      cases left with
      | nil =>
        cases acted
        exact ⟨.last entryPath,rfl⟩
      | cons ent left =>
        cases acted
        exact ⟨.next ent left entryPath,rfl⟩
  | check ent left entryPath =>
    simp only [act] at acted
    split at acted
    next many =>
      cases acted
      refine ⟨.enough ent left entryPath ?_,rfl⟩
      rw [TreeWalker.TooManyErrors] at many
      split at many
      next => contradiction
      next =>
        have reached := of_decide_eq_true many
        omega
    next =>
      cases acted
      exact ⟨.checked ent left entryPath,rfl⟩
  | put ent left entryPath =>
    simp only [act,TreeWalker.alreadyProcessed] at acted
    by_cases known : ent.oid.String ∈ w.enqueued
    · rw [if_pos known] at acted
      cases acted
      exact ⟨.skip ent left entryPath known,rfl⟩
    · rw [if_neg known] at acted
      cases acted
      exact ⟨.put ent left entryPath known,rfl⟩
  | share ent left entryPath =>
    simp only [act] at acted
    split at acted
    next free =>
      cases acted
      exact ⟨.share ent left entryPath free,rfl⟩
    next =>
      cases acted
      exact ⟨.alone ent left entryPath,rfl⟩
  | child left entryPath =>
    simp only [act] at acted
    split at acted
    next =>
      cases acted
      exact ⟨.resume left entryPath,rfl⟩
    next => contradiction
  | close =>
    simp only [act] at acted
    split at acted
    next all =>
      cases acted
      exact ⟨.close (List.all_eq_true.mp all),rfl⟩
    next => contradiction
  | leave =>
    cases acted
    exact ⟨.ended,rfl⟩
  | ended => contradiction

end Actions

section Owed

/-- The objects that are in the set, and that a goroutine will still visit. -/
def owed : Place ε → List Bytes
  | .processEntry e _ => [e.oid.String]
  | .share ent _ _ => [ent.oid.String]
  | _ => []

/-- The entries that a goroutine will still look up in the set. -/
def todo : Place ε → List Entry
  | .process e _ => [e]
  | .processDirEntry entries _ => entries
  | .next left _ => left
  | .check ent left _ => ent :: left
  | .put ent left _ => ent :: left
  | .share _ left _ => left
  | .child left _ => left
  | _ => []

/-- The entries that a goroutine knows. -/
def mentions : Place ε → List Entry
  | .processEntry e _ => [e]
  | .share ent left _ => ent :: left
  | place => todo place

def Event.keys (event : Event ε) : List Bytes := event.visited?.toList.map ID.String

variable {w w' : TreeWalker ε} {shared : Bool} {started new : List (Task ε)} {place place' : Place ε} {event : Event ε}

@[simp] theorem enqueued_release (shared : Bool) : (w.release shared).enqueued = w.enqueued := by cases shared <;> rfl
@[simp] theorem numErrors_release (shared : Bool) : (w.release shared).numErrors = w.numErrors := by cases shared <;> rfl
@[simp] theorem errors_release (shared : Bool) : (w.release shared).errors = w.errors := by cases shared <;> rfl

/-- The set is left as it is, or an entry that was not in it is put in. -/
theorem Acts.enqueued (acts : Acts options Join w shared started place w' place' new event) :
    w'.enqueued = w.enqueued ∨ ∃ e : Entry, e.oid.String ∉ w.enqueued ∧ w'.enqueued = w.enqueued ++ [e.oid.String] := by
  cases acts with
  | enter e entryPath unknown => exact .inr ⟨e,unknown,rfl⟩
  | put e left entryPath unknown => exact .inr ⟨e,unknown,rfl⟩
  | ended => exact .inl (enqueued_release shared)
  | _ => exact .inl rfl

theorem Acts.nodup (acts : Acts options Join w shared started place w' place' new event) (nodup : w.enqueued.Nodup) :
    w'.enqueued.Nodup := by
  rcases acts.enqueued with same | ⟨e,unknown,added⟩
  · exact same ▸ nodup
  · rw [added]
    exact List.Nodup.append nodup (List.nodup_singleton _) (List.disjoint_singleton.mpr unknown)

theorem Acts.enqueued_subset (acts : Acts options Join w shared started place w' place' new event) : w.enqueued ⊆ w'.enqueued := by
  rcases acts.enqueued with same | ⟨e,unknown,added⟩
  · exact same ▸ List.Subset.refl _
  · exact added ▸ List.subset_append_left _ _

/-- What is put in the set is visited, or will be. -/
theorem Acts.balance (acts : Acts options Join w shared started place w' place' new event) (k : Bytes) :
    w'.enqueued.count k + (owed place).count k =
      w.enqueued.count k + event.keys.count k + (owed place').count k + (new.flatMap fun t => owed t.place).count k := by
  cases acts with
  | enter e => simp [owed,Event.keys,Event.visited?,TreeWalker.add]
  | refused e => simp [owed,Event.keys,Event.visited?,TreeWalker.ReportError]
  | called => simp [owed,Event.keys,Event.visited?,Entry.oid]
  | opened => simp [owed,Event.keys,Event.visited?,Entry.oid]
  | put e => simp [owed,Event.keys,Event.visited?,TreeWalker.add]
  | share e => simp [owed,Event.keys,Event.visited?]
  | alone e => simp [owed,Event.keys,Event.visited?]
  | ended => simp [owed,Event.keys,Event.visited?]
  | _ => simp [owed,Event.keys,Event.visited?,TreeWalker.ReportError]

theorem ReportError_errors (err : ε) : (w.ReportError options err).errors ≠ [] := by
  rw [TreeWalker.ReportError]
  split
  next => exact List.append_ne_nil_of_right_ne_nil _ (List.cons_ne_nil _ _)
  next full =>
    intro empty
    rw [empty,List.length_nil] at full
    omega

/-- A failure is reported when it happens. -/
theorem Acts.errors (acts : Acts options Join w shared started place w' place' new event) :
    w'.numErrors = w.numErrors + event.failed.toNat ∧ (w'.errors = w.errors ∨ w'.errors ≠ []) ∧
      (event.failed = true → w'.errors ≠ []) := by
  cases acts with
  | refused e entryPath err => exact ⟨rfl,.inr (ReportError_errors err),fun _ => ReportError_errors err⟩
  | unread entries entryPath err => exact ⟨rfl,.inr (ReportError_errors err),fun _ => ReportError_errors err⟩
  | stuck left entryPath err => exact ⟨rfl,.inr (ReportError_errors err),fun _ => ReportError_errors err⟩
  | ended => exact ⟨numErrors_release shared,.inl (errors_release shared),fun failed => Bool.noConfusion failed⟩
  | _ => exact ⟨rfl,.inl rfl,fun failed => Bool.noConfusion failed⟩

/-- Nothing is forgotten as long as there is no error. -/
theorem Acts.todo (acts : Acts options Join w shared started place w' place' new event) (none : w'.numErrors = 0)
    (identified : ∀ e ∈ mentions place, e.oid ≠ EmptyID) :
    (∀ c ∈ todo place, c ∈ Walking.todo place' ∨ c.oid.String ∈ w'.enqueued) ∧
      ∀ e path err, event = .callback e path err → e.entries ⊆ Walking.todo place' := by
  have silent {place'' : Place ε} (subset : Walking.todo place ⊆ Walking.todo place'') :
      (∀ c ∈ Walking.todo place, c ∈ Walking.todo place'' ∨ c.oid.String ∈ w'.enqueued) ∧
        ∀ e path err, (Event.silent : Event ε) = .callback e path err → e.entries ⊆ Walking.todo place'' :=
    ⟨fun c member => .inl (subset member),fun _ _ _ equal => by contradiction⟩
  cases acts with
  | unidentified e entryPath empty => exact absurd empty (identified e (List.mem_singleton_self _))
  | known e entryPath known => simpa [Walking.todo] using known
  | enter e => simp [Walking.todo,TreeWalker.add]
  | refused e => exact absurd none (Nat.succ_ne_zero _)
  | called => simp [Walking.todo,Entry.entries]
  | opened => simp [Walking.todo,Entry.entries]
  | unread => exact absurd none (Nat.succ_ne_zero _)
  | stuck => exact absurd none (Nat.succ_ne_zero _)
  | enough ent left entryPath many => exact absurd none many
  | skip ent left entryPath known =>
    refine ⟨fun c member => ?_,fun _ _ _ equal => by contradiction⟩
    rcases List.mem_cons.mp member with rfl | later
    · exact .inr known
    · exact .inl later
  | put ent left =>
    refine ⟨fun c member => ?_,fun _ _ _ equal => by contradiction⟩
    rcases List.mem_cons.mp member with rfl | later
    · exact .inr (List.mem_append_right _ (List.mem_singleton_self _))
    · exact .inl later
  | _ => exact silent (List.Subset.refl _)

/-- A goroutine knows entries of those it was given, and of those it finds in directories. -/
theorem Acts.mentions {S : Set Entry} (closed : ∀ e ∈ S, ∀ c ∈ e.entries, c ∈ S)
    (acts : Acts options Join w shared started place w' place' new event) (inside : ∀ e ∈ mentions place, e ∈ S) :
    (∀ e ∈ Walking.mentions place', e ∈ S) ∧ (∀ t ∈ new, ∀ e ∈ Walking.mentions t.place, e ∈ S) ∧
      ∀ e path err, event = .callback e path err → e ∈ S := by
  cases acts with
  | opened name oid entries entryPath =>
    have whole : Entry.directory name oid entries ∈ S := inside _ (List.mem_singleton_self _)
    refine ⟨closed _ whole,by simp,?_⟩
    intro e path err equal
    cases equal
    exact whole
  | _ => simp_all [Walking.mentions,Walking.todo]

end Owed

section Ends

variable {w w' : TreeWalker ε} {shared : Bool} {started new : List (Task ε)} {place place' : Place ε} {event : Event ε}

/-- The places where a goroutine has started nothing, or waited for all of it. -/
def Place.quiet : Place ε → Bool
  | .process _ _ | .processEntry _ _ | .processDirEntry _ _ | .leave | .returned _ | .ended => true
  | _ => false

theorem Acts.quiet (acts : Acts options Join w shared started place w' place' new event) (quiet : place'.quiet = true) :
    new = [] ∧ (place.quiet = true ∨ ∀ b ∈ started, b.done = true) := by
  cases acts with
  | answer all => exact ⟨rfl,.inr all⟩
  | close all => exact ⟨rfl,.inr all⟩
  | _ => first | exact ⟨rfl,.inl rfl⟩ | contradiction

theorem done_quiet (t : Task ε) (done : t.done = true) : t.place.quiet = true := by
  obtain ⟨shared,place⟩ := t
  cases place with
  | returned => rfl
  | ended => rfl
  | _ => contradiction

theorem rests (w : TreeWalker ε) (t : Task ε) (started : List (Task ε)) (failing : Option ε) (done : t.done = true) :
    act options Join w t started failing = none := by
  obtain ⟨shared,place⟩ := t
  cases place with
  | returned => rfl
  | ended => rfl
  | _ => contradiction

theorem ending : Family.Ending (act (ε := ε) options Join) Task.done (·.place.quiet) where
  rests := rests
  quiets := done_quiet
  waits _ _ _ _ _ acted quiet := (acts acted).1.quiet quiet

/-- A goroutine waits only for what it started. -/
theorem moves (w : TreeWalker ε) (t : Task ε) (started : List (Task ε)) (alive : t.done = false) (all : ∀ b ∈ started, b.done = true) :
    ∃ failing taken, act options Join w t started failing = some taken := by
  have ended : started.all Task.done = true := List.all_eq_true.mpr all
  have own : (started.all fun b => b.done || b.shared) = true := List.all_eq_true.mpr fun b member => by simp [all b member]
  refine ⟨none,Option.ne_none_iff_exists'.mp ?_⟩
  obtain ⟨shared,place⟩ := t
  cases place with
  | returned => contradiction
  | ended => contradiction
  | processing => simp [act,ended]
  | close => simp [act,ended]
  | child => simp [act,own]
  | processEntry e => cases e <;> simp [act]
  | next left => cases left <;> simp [act]
  | process e =>
    simp only [act,TreeWalker.alreadyProcessed]
    split
    next => simp
    next => split <;> simp
  | check ent => simp only [act]; split <;> simp
  | put ent => simp only [act]; split <;> simp
  | share ent => simp only [act]; split <;> simp
  | _ => simp [act]

mutual

/-- How many actions an entry takes at most. -/
def Entry.cost : Entry → Nat
  | .leaf _ _ => 2
  | .directory _ _ entries => costs entries + 5

def costs : List Entry → Nat
  | [] => 0
  | e :: entries => e.cost + costs entries + 5

end

def weight (t : Task ε) : Nat :=
  match t.place with
  | .process e _ => e.cost + 2
  | .processing => 1
  | .processEntry e _ => e.cost
  | .processDirEntry entries _ => costs entries + 4
  | .next left _ => costs left + 3
  | .check ent left _ => ent.cost + costs left + 7
  | .put ent left _ => ent.cost + costs left + 6
  | .share ent left _ => ent.cost + costs left + 5
  | .child left _ => costs left + 4
  | .close => 2
  | .leave => 1
  | .returned _ => 0
  | .ended => 0

theorem Entry.cost_pos (e : Entry) : 2 ≤ e.cost := by
  cases e with
  | leaf name oid => rw [Entry.cost]
  | directory name oid entries =>
    rw [Entry.cost]
    omega

theorem Acts.lowers (acts : Acts options Join w shared started place w' place' new event) :
    weight ⟨shared,place'⟩ + (new.map weight).sum < weight ⟨shared,place⟩ := by
  cases acts with
  | refused e => exact e.cost_pos
  | unidentified e => simp [weight]
  | known e => simp [weight]
  | called => simp [weight,Entry.cost]
  | opened => simp [weight,Entry.cost]
  | last => simp [weight,costs]
  | next => simp [weight,costs]
  | _ => simp [weight] <;> omega

theorem lowers (w : TreeWalker ε) (t : Task ε) (started : List (Task ε)) (failing : Option ε)
    (r : Family.Action (TreeWalker ε) (Task ε) (Event ε)) (acted : act options Join w t started failing = some r) :
    weight r.label + (r.new.map weight).sum < weight t := by
  obtain ⟨one,same⟩ := acts acted
  have lower := one.lowers
  rw [← same] at lower
  exact lower

/-- A shared task keeps a worker busy until it has ended. -/
def Task.busy (t : Task ε) : Bool := t.shared && !t.done

/-- Only tasks of `processEntry` are shared. -/
def Task.Proper (t : Task ε) : Prop :=
  match t.place with
  | .process _ _ | .processing | .returned _ => t.shared = false
  | _ => True

/-- Each busy worker has its place in the semaphore. -/
theorem Acts.semaphore (acts : Acts options Join w shared started place w' place' new event) (proper : Task.Proper ⟨shared,place⟩)
    (held : (Task.busy (ε := ε) ⟨shared,place⟩).toNat ≤ w.semaphore) :
    w'.semaphore + (Task.busy (ε := ε) ⟨shared,place⟩).toNat =
        w.semaphore + (Task.busy (ε := ε) ⟨shared,place'⟩).toNat + new.countP Task.busy ∧
      (w.semaphore ≤ options.numWorkers → w'.semaphore ≤ options.numWorkers) ∧
      Task.Proper ⟨shared,place'⟩ ∧ ∀ t ∈ new, t.Proper := by
  cases acts with
  | unidentified =>
    cases proper
    simp [Task.busy,Task.Proper]
  | known =>
    cases proper
    simp [Task.busy,Task.Proper]
  | enter =>
    cases proper
    simp [Task.busy,Task.Proper,TreeWalker.add]
  | answer =>
    cases proper
    simp [Task.busy,Task.Proper]
  | ended =>
    cases shared with
    | true =>
      simp only [Task.busy,Task.done,TreeWalker.release,Task.Proper] at held ⊢
      simp at held ⊢
      omega
    | false => simp [Task.busy,Task.done,TreeWalker.release,Task.Proper]
  | share ent left entryPath free =>
    refine ⟨?_,fun _ => free,trivial,by simp [Task.Proper]⟩
    simp [Task.busy,Task.done]
    omega
  | _ => simp [Task.busy,Task.done,Task.Proper,TreeWalker.ReportError,TreeWalker.add]

end Ends


end Vbe.Snapshots.Walking
