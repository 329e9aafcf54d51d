import Vbe.Objects.IdTexts
import Vbe.Snapshots.TreeWalks

/-! Every object of some snapshot trees is visited once, however the calls and the goroutines of a walk take turns. -/
namespace Vbe.Snapshots.Walking
open Vbe.Index (Bytes)
open Vbe.Objects (ID EmptyID)
open Vbe.Library

variable {ε : Type} {options : TreeWalkerOptions} {Join : String → String → String} {roots : List (Entry × String)}

abbrev Walks (ε : Type) := Library.Calls (TreeWalker ε) (Task ε) (Event ε)

section Invariant
variable {c d : Walks ε} {l : Nat × Family.Position × Option ε}

/-- The entries that are to be visited: those of the calls, and those of the directories the callback was invoked for. -/
def Due (roots : List (Entry × String)) (c : Walks ε) (e : Entry) : Prop :=
  (∃ path, (e,path) ∈ roots) ∨ ∃ f path err, Event.callback f path err ∈ c.events ∧ e ∈ f.entries

def Pending (c : Walks ε) (e : Entry) : Prop :=
  (∃ t ∈ c.labels, e ∈ todo t.place) ∨ e.oid.String ∈ c.shared.enqueued

structure Invariant (roots : List (Entry × String)) (c : Walks ε) : Prop where
  nodup : c.shared.enqueued.Nodup
  balance : ∀ k, c.shared.enqueued.count k =
    (c.events.flatMap Event.keys).count k + (c.labels.flatMap fun t => owed t.place).count k
  errors : c.shared.numErrors = c.events.countP Event.failed
  recorded : c.shared.numErrors = 0 ∨ c.shared.errors ≠ []
  known : ∀ t ∈ c.labels, ∀ e ∈ mentions t.place, Reachable roots e
  visited : ∀ e path err, Event.callback e path err ∈ c.events → Reachable roots e
  complete : c.shared.numErrors = 0 → ∀ e, Due roots c e → Pending c e

theorem reachable_closed : ∀ e ∈ {e | Reachable roots e}, ∀ c ∈ e.entries, c ∈ {e | Reachable roots e} := by
  intro e reachable c listed
  obtain ⟨r,root,inner⟩ := reachable
  exact ⟨r,root,.child inner listed⟩

theorem labels_of (s : TreeWalker ε) (labels : List (Task ε)) : (Library.Calls.of s labels : Walks ε).labels = labels := by
  rw [Library.Calls.labels,Library.Calls.of,List.flatMap_map]
  exact List.flatMap_singleton' labels

theorem events_of (s : TreeWalker ε) (labels : List (Task ε)) : (Library.Calls.of s labels : Walks ε).events = [] := by
  rw [Library.Calls.events,Library.Calls.of,List.flatMap_map]
  exact List.flatMap_eq_nil_iff.mpr fun _ _ => rfl

theorem invariant_start : Invariant roots (start (ε := ε) roots) := by
  have placed (t : Task ε) (member : t ∈ (start (ε := ε) roots).labels) : ∃ r ∈ roots, t = ⟨false,.process r.1 r.2⟩ := by
    rw [start,labels_of] at member
    obtain ⟨r,root,rfl⟩ := List.mem_map.mp member
    exact ⟨r,root,rfl⟩
  have none : (start (ε := ε) roots).events = [] := events_of _ _
  refine ⟨List.nodup_nil,fun k => ?_,?_,.inl rfl,?_,?_,fun _ e due => .inl ?_⟩
  · have free : (start (ε := ε) roots).labels.flatMap (fun t => owed t.place) = [] := by
      rw [List.flatMap_eq_nil_iff]
      intro t member
      obtain ⟨r,_,rfl⟩ := placed t member
      rfl
    rw [free,none]
    rfl
  · rw [none]
    rfl
  · intro t member e mentioned
    obtain ⟨r,root,rfl⟩ := placed t member
    rw [List.mem_singleton.mp mentioned]
    exact ⟨r,root,.root⟩
  · rw [none]
    intro e path err member
    contradiction
  · rcases due with ⟨path,root⟩ | ⟨f,path,err,happened,_⟩
    · refine ⟨⟨false,.process e path⟩,?_,List.mem_singleton_self _⟩
      rw [start,labels_of]
      exact List.mem_map.mpr ⟨_,root,rfl⟩
    · rw [none] at happened
      contradiction

theorem invariant_step (identified : Identified roots) (inv : Invariant roots c) (taken : Library.Calls.step (act options Join) c l = some d) : Invariant roots d := by
  obtain ⟨t,started,r,others,one⟩ := Library.Calls.stepped taken
  obtain ⟨acts,_⟩ := acts one.acted
  have before (b : Task ε) : b ∈ c.labels ↔ b = t ∨ b ∈ others := by rw [one.labels.mem_iff,List.mem_cons]
  have after (b : Task ε) : b ∈ d.labels ↔ b = r.label ∨ b ∈ r.new ∨ b ∈ others := by
    rw [one.labels'.mem_iff,List.mem_cons,List.mem_append]
  have happened (e : Event ε) : e ∈ d.events ↔ e = r.event ∨ e ∈ c.events := by rw [one.events.mem_iff,List.mem_cons]
  have mentioned := acts.mentions reachable_closed (inv.known t ((before t).mpr (.inl rfl)))
  obtain ⟨counted,recorded,failed⟩ := acts.errors
  refine ⟨?_,fun k => ?_,?_,?_,?_,?_,?_⟩
  · rw [one.shared]
    exact acts.nodup inv.nodup
  · have balance := inv.balance k
    have moved := acts.balance k
    rw [(one.labels.flatMap_right _).count_eq] at balance
    rw [one.shared,(one.labels'.flatMap_right _).count_eq,(one.events.flatMap_right _).count_eq]
    simp only [List.flatMap_cons,List.flatMap_append,List.count_append] at balance moved ⊢
    omega
  · rw [one.shared,counted,inv.errors,one.events.countP_eq,List.countP_cons]
    cases r.event.failed <;> rfl
  · rw [one.shared,counted]
    cases fails : r.event.failed with
    | true => exact .inr (failed fails)
    | false =>
      refine inv.recorded.imp id fun some => ?_
      rcases recorded with same | some
      · exact same ▸ some
      · exact some
  · intro b member e known
    rcases (after b).mp member with rfl | fresh | other
    · exact mentioned.1 e known
    · exact mentioned.2.1 b fresh e known
    · exact inv.known b ((before b).mpr (.inr other)) e known
  · intro e path err member
    rcases (happened _).mp member with now | earlier
    · exact mentioned.2.2 e path err now.symm
    · exact inv.visited e path err earlier
  · intro none e due
    rw [one.shared] at none
    have todo := acts.todo none fun e mentioned empty => by
      have valid := identified e (inv.known t ((before t).mpr (.inl rfl)) e mentioned)
      rw [empty] at valid
      exact absurd valid.2.1 (Nat.not_succ_le_zero 0)
    have earlier (due : Due roots c e) : Pending d e := by
      rcases inv.complete (by omega) e due with ⟨b,member,held⟩ | enqueued
      · rcases (before b).mp member with rfl | other
        · rcases todo.1 e held with left | enqueued
          · exact .inl ⟨r.label,(after _).mpr (.inl rfl),left⟩
          · exact .inr (one.shared ▸ enqueued)
        · exact .inl ⟨b,(after b).mpr (.inr (.inr other)),held⟩
      · exact .inr (one.shared ▸ acts.enqueued_subset enqueued)
    rcases due with root | ⟨f,path,err,member,listed⟩
    · exact earlier (.inl root)
    · rcases (happened _).mp member with now | before
      · exact .inl ⟨r.label,(after _).mpr (.inl rfl),todo.2 f path err now.symm listed⟩
      · exact earlier (.inr ⟨f,path,err,before,listed⟩)

end Invariant

section Returns
variable {c d : Walks ε} {l : Nat × Family.Position × Option ε}

/-- A call of `Process` has not failed before it goes on, and has returned an error if anything in it failed. -/
def Answer (place : Place ε) (started : Family (Task ε)) (log : List (Event ε)) : Prop :=
  match place with
  | .process _ _ => started = .nil ∧ ∀ e ∈ log, e.failed = false
  | .processing => True
  | .returned outcome => (∃ e ∈ log, e.failed = true) → outcome.isError = true
  | _ => False

def Answers (call : Call (Task ε) (Event ε)) : Prop :=
  ∃ root started, call.tasks = .cons root started .nil ∧ Answer root.place started call.log

theorem answers_start : ∀ call ∈ (start (ε := ε) roots).calls, Answers call := by
  intro call member
  obtain ⟨t,labelled,rfl⟩ := List.mem_map.mp member
  obtain ⟨r,_,rfl⟩ := List.mem_map.mp labelled
  exact ⟨_,_,rfl,rfl,fun e none => absurd none List.not_mem_nil⟩

theorem isError_Err {w : TreeWalker ε} (some : w.numErrors ≠ 0) (recorded : w.errors ≠ []) : w.Err.isError = true := by
  rw [TreeWalker.Err]
  split
  next none => contradiction
  next =>
    split
    next none => contradiction
    next => rfl
  next => rfl

theorem Acts.answers {w w' : TreeWalker ε} {shared : Bool} {started new : List (Task ε)} {place place' : Place ε} {event : Event ε}
    {inner inner' : Family (Task ε)} {log : List (Event ε)}
    (acts : Acts options Join w shared started place w' place' new event) (answer : Answer place inner log)
    (known : (∃ e ∈ log, e.failed = true) → w.numErrors ≠ 0 ∧ w.errors ≠ []) : Answer place' inner' (log ++ [event]) := by
  cases acts with
  | unidentified => exact fun _ => rfl
  | known =>
    intro failed
    obtain ⟨e,member,fails⟩ := failed
    rcases List.mem_append.mp member with before | now
    · rw [answer.2 e before] at fails
      contradiction
    · rw [List.mem_singleton.mp now] at fails
      contradiction
  | enter => trivial
  | answer =>
    intro failed
    obtain ⟨e,member,fails⟩ := failed
    rcases List.mem_append.mp member with before | now
    · obtain ⟨some,recorded⟩ := known ⟨e,before,fails⟩
      exact isError_Err some recorded
    · rw [List.mem_singleton.mp now] at fails
      contradiction
  | _ => exact answer.elim

theorem answers_step (inv : Invariant roots c) (settled : ∀ call ∈ c.calls, call.tasks.Settled Task.done (·.place.quiet))
    (answers : ∀ call ∈ c.calls, Answers call) (taken : Library.Calls.step (act options Join) c l = some d) :
    ∀ call ∈ d.calls, Answers call := by
  obtain ⟨t,started,r,others,one⟩ := Library.Calls.stepped taken
  obtain ⟨call,tasks,found,moved,set⟩ := one.calls
  have member := List.mem_of_getElem? found
  intro other changed
  rw [set] at changed
  rcases List.mem_or_eq_of_mem_set changed with before | rfl
  · exact answers other before
  obtain ⟨root,inner,shape,answer⟩ := answers call member
  have quiet := settled call member
  rw [shape] at moved quiet
  rcases Family.step_cons_nil moved with ⟨result,acted,rfl,_,event⟩ | ⟨q,inner',inside,rfl⟩
  · refine ⟨result.label,_,rfl,?_⟩
    change Answer _ _ (call.log ++ [r.event])
    rw [event]
    refine (acts acted).1.answers answer fun failed => ?_
    obtain ⟨e,logged,fails⟩ := failed
    have some : c.shared.numErrors ≠ 0 := by
      rw [inv.errors]
      exact (List.countP_pos_iff.mpr ⟨e,List.mem_flatMap.mpr ⟨call,member,logged⟩,fails⟩).ne'
    exact ⟨some,inv.recorded.resolve_left some⟩
  · refine ⟨root,inner',rfl,?_⟩
    have busy : root.place.quiet = false := by
      by_contra still
      rw [Family.rests_of_done ending (quiet.1 (by simpa using still))] at inside
      contradiction
    revert answer busy
    cases root.place <;> simp [Answer,Place.quiet]

end Returns

section Runs
variable {c : Walks ε} {labels : List (Nat × Family.Position × Option ε)}

/-- What is known at any time of a walk. -/
structure Sound (roots : List (Entry × String)) (c : Walks ε) : Prop where
  invariant : Invariant roots c
  settled : ∀ call ∈ c.calls, call.tasks.Settled Task.done (·.place.quiet)
  answers : ∀ call ∈ c.calls, Answers call

theorem sound_run (identified : Identified roots) (reached : Runs.run (Library.Calls.step (act options Join)) (start roots) labels = some c) :
    Sound roots c := by
  have kept (s l t) (sound : Sound roots s) (_ : True) (taken : Library.Calls.step (act (ε := ε) options Join) s l = some t) : Sound roots t :=
    ⟨invariant_step identified sound.invariant taken,Library.Calls.settled_step ending sound.settled taken,
      answers_step sound.invariant sound.settled sound.answers taken⟩
  refine Runs.invariant kept ⟨invariant_start,?_,answers_start⟩ (Runs.meets_true _ _) reached
  intro call member
  obtain ⟨t,_,rfl⟩ := List.mem_map.mp member
  exact ⟨fun _ _ none => absurd none List.not_mem_nil,trivial,trivial⟩

theorem Sound.failed (sound : Sound roots c) {call : Call (Task ε) (Event ε)} (member : call ∈ c.calls)
    (failed : ∃ e ∈ call.log, e.failed = true) {result : Outcome ε} (returned : outcome call = some result) :
    result.isError = true := by
  obtain ⟨⟨shared,place⟩,started,shape,answer⟩ := sound.answers call member
  rw [outcome,shape] at returned
  cases place with
  | returned other =>
    cases returned
    exact answer failed
  | _ => contradiction

/-- Where all calls have returned, no goroutine is left. -/
theorem Sound.all_done (sound : Sound roots c) (returned : ∀ call ∈ c.calls, outcome call ≠ none) : ∀ t ∈ c.labels, t.done = true := by
  intro t member
  obtain ⟨call,one,inner⟩ := List.mem_flatMap.mp member
  refine Family.labels_done done_quiet (sound.settled call one) ?_ t inner
  obtain ⟨⟨shared,place⟩,started,shape,answer⟩ := sound.answers call one
  have ended := returned call one
  rw [outcome,shape] at ended
  rw [shape]
  intro b top
  rw [List.mem_singleton.mp top]
  cases place with
  | returned => rfl
  | _ => contradiction

theorem Sound.progress (sound : Sound roots c) :
    (∀ call ∈ c.calls, outcome call ≠ none) ∨ ∃ l, Library.Calls.step (act options Join) c l ≠ none := by
  by_cases done : ∀ call ∈ c.calls, outcome call ≠ none
  · exact .inl done
  · simp only [not_forall,Decidable.not_not] at done
    obtain ⟨call,member,unreturned⟩ := done
    refine .inr (Library.Calls.exists_step moves ?_)
    obtain ⟨⟨shared,place⟩,started,shape,answer⟩ := sound.answers call member
    refine ⟨⟨shared,place⟩,List.mem_flatMap.mpr ⟨call,member,?_⟩,?_⟩
    · rw [shape]
      exact List.mem_cons_self
    · rw [outcome,shape] at unreturned
      cases place with
      | returned => contradiction
      | ended => exact answer.elim
      | _ => rfl

theorem keys_visited (c : Walks ε) : c.events.flatMap Event.keys = (visited c).map ID.String := by
  rw [visited]
  induction c.events with
  | nil => rfl
  | cons e events ih =>
    rw [List.flatMap_cons,ih,Event.keys]
    cases e <;> rfl

theorem done_empty {t : Task ε} (done : t.done = true) : owed t.place = [] ∧ todo t.place = [] := by
  obtain ⟨shared,place⟩ := t
  cases place with
  | returned => exact ⟨rfl,rfl⟩
  | ended => exact ⟨rfl,rfl⟩
  | _ => contradiction

/-- Where all is done without an error, all that is in the set was visited, and all that was to be visited is in the set. -/
theorem Sound.complete (sound : Sound roots c) (all : ∀ t ∈ c.labels, t.done = true) (none : c.shared.numErrors = 0) :
    (∀ k, c.shared.enqueued.count k = ((visited c).map ID.String).count k) ∧
      ∀ e, Due roots c e → e.oid.String ∈ c.shared.enqueued := by
  constructor
  · intro k
    have free : c.labels.flatMap (fun t => owed t.place) = [] := List.flatMap_eq_nil_iff.mpr fun t member => (done_empty (all t member)).1
    have balance := sound.invariant.balance k
    rw [free,List.count_nil,Nat.add_zero,keys_visited] at balance
    exact balance
  · intro e due
    rcases sound.invariant.complete none e due with ⟨t,member,left⟩ | enqueued
    · rw [(done_empty (all t member)).2] at left
      contradiction
    · exact enqueued

theorem Sound.no_errors (sound : Sound roots c) (returned : ∀ call ∈ c.calls, outcome call = some .nil) : c.shared.numErrors = 0 := by
  rw [sound.invariant.errors,List.countP_eq_zero]
  intro e happened fails
  obtain ⟨call,member,logged⟩ := List.mem_flatMap.mp happened
  have := sound.failed member ⟨e,logged,fails⟩ (returned call member)
  contradiction

theorem mem_visited {id : ID} : id ∈ visited c ↔ ∃ e path err, Event.callback e path err ∈ c.events ∧ e.oid = id := by
  rw [visited,List.mem_filterMap]
  constructor
  · intro found
    obtain ⟨event,happened,is⟩ := found
    cases event with
    | callback e path err => exact ⟨e,path,err,happened,Option.some.inj is⟩
    | _ => contradiction
  · intro found
    obtain ⟨e,path,err,happened,rfl⟩ := found
    exact ⟨_,happened,rfl⟩

/-- Every entry that can be reached was put in the set. -/
theorem Sound.enqueued (identified : Identified roots) (shares : Shares roots) (sound : Sound roots c)
    (all : ∀ t ∈ c.labels, t.done = true) (none : c.shared.numErrors = 0) {r : Entry × String} (root : r ∈ roots) {e : Entry}
    (within_ : Within r.1 e) : e.oid.String ∈ c.shared.enqueued := by
  obtain ⟨counts,due⟩ := sound.complete all none
  induction within_ with
  | root => exact due r.1 (.inl ⟨r.2,root⟩)
  | @child e c' inner listed ih =>
    have once : e.oid.String ∈ (visited c).map ID.String := by
      rw [← List.count_pos_iff,← counts,List.count_pos_iff]
      exact ih
    obtain ⟨id,visit,text⟩ := List.mem_map.mp once
    obtain ⟨f,path,err,happened,rfl⟩ := mem_visited.mp visit
    have reachable : Reachable roots e := ⟨r,root,inner⟩
    have known := sound.invariant.visited f path err happened
    have same := Objects.String_injective (identified f known) (identified e reachable) text
    obtain ⟨d,inside,is⟩ := shares e f reachable known same.symm c' listed
    rw [← is]
    exact due d (.inr ⟨f,path,err,happened,inside⟩)

/-- A goroutine that shares an entry finds a free worker: there are as many as places in the semaphore. -/
theorem workers_suffice (reached : Runs.run (Library.Calls.step (act options Join)) (start roots) labels = some c) :
    c.labels.countP Task.busy = c.shared.semaphore ∧ c.shared.semaphore ≤ options.numWorkers ∧ ∀ t ∈ c.labels, t.Proper := by
  have kept (s l t) (pooled : s.labels.countP Task.busy = s.shared.semaphore ∧ s.shared.semaphore ≤ options.numWorkers ∧
      ∀ t ∈ s.labels, t.Proper) (_ : True) (taken : Library.Calls.step (act (ε := ε) options Join) s l = some t) :
      t.labels.countP Task.busy = t.shared.semaphore ∧ t.shared.semaphore ≤ options.numWorkers ∧ ∀ b ∈ t.labels, b.Proper := by
    obtain ⟨a,tops,r,others,one⟩ := Library.Calls.stepped taken
    obtain ⟨acts,same⟩ := acts one.acted
    obtain ⟨busy,bound,proper⟩ := pooled
    rw [one.labels.countP_eq,List.countP_cons] at busy
    have held : a.busy.toNat ≤ s.shared.semaphore := by
      rw [← busy]
      cases a.busy <;> simp
    obtain ⟨balance,bounded,label,new⟩ := acts.semaphore (proper a (one.labels.mem_iff.mpr List.mem_cons_self)) held
    rw [one.shared]
    refine ⟨?_,bounded bound,fun b member => ?_⟩
    · rw [one.labels'.countP_eq,List.countP_cons,List.countP_append]
      have after : Task.busy ⟨a.shared,r.label.place⟩ = r.label.busy := by rw [← same]
      have before : Task.busy ⟨a.shared,a.place⟩ = a.busy := rfl
      rw [after,before] at balance
      revert busy balance
      cases a.busy <;> cases r.label.busy <;> simp <;> omega
    · rcases List.mem_cons.mp (one.labels'.mem_iff.mp member) with rfl | member
      · rw [← same] at label
        exact label
      rcases List.mem_append.mp member with fresh | other
      · exact new b fresh
      · exact proper b (one.labels.mem_iff.mpr (List.mem_cons_of_mem a other))
  refine Runs.invariant kept ⟨?_,Nat.zero_le _,?_⟩ (Runs.meets_true _ _) reached
  · rw [start,labels_of,List.countP_map]
    exact List.countP_eq_zero.mpr fun r _ busy => Bool.noConfusion busy
  · intro t member
    rw [start,labels_of] at member
    obtain ⟨r,_,rfl⟩ := List.mem_map.mp member
    rfl

end Runs

section Claims

/-- In every run of a walk: once all calls have returned nil the callback was invoked once for each object that can be reached,
and for no other; a call in which a callback or a read from a directory failed returns an error; and every run ends,
with all calls having returned. -/
theorem visited_once (numCPU : Nat) (options : TreeWalkerOptions) (Join : String → String → String) (roots : List (Entry × String))
    (identified : Identified roots) (shares : Shares roots) (labels : List (Nat × Family.Position × Option ε)) (c : Walks ε)
    (reached : Runs.run (Library.Calls.step (act (NewTreeWalker numCPU options) Join)) (start roots) labels = some c) :
    ((∀ call ∈ c.calls, outcome call = some .nil) →
      (∀ e, Reachable roots e → (visited c).count e.oid = 1) ∧ ∀ id ∈ visited c, ∃ e, Reachable roots e ∧ e.oid = id) ∧
    (∀ call ∈ c.calls, (∃ e ∈ call.log, e.failed = true) → ∀ result, outcome call = some result → result.isError = true) ∧
    labels.length ≤ (start (ε := ε) roots).total weight ∧
    ((∀ call ∈ c.calls, outcome call ≠ none) ∨ ∃ l, Library.Calls.step (act (NewTreeWalker numCPU options) Join) c l ≠ none) := by
  have sound := sound_run identified reached
  refine ⟨fun returned => ?_,fun call member failed result => sound.failed member failed,?_,sound.progress⟩
  · have all := sound.all_done fun call member => by simp [returned call member]
    have none := sound.no_errors returned
    have counts := (sound.complete all none).1
    constructor
    · intro e reachable
      obtain ⟨r,root,inner⟩ := reachable
      have nodup : (visited c).Nodup := by
        refine List.Nodup.of_map ID.String (List.nodup_iff_count_le_one.mpr fun k => ?_)
        rw [← counts]
        exact List.nodup_iff_count_le_one.mp sound.invariant.nodup k
      have once : e.oid.String ∈ (visited c).map ID.String := by
        rw [← List.count_pos_iff,← counts,List.count_pos_iff]
        exact sound.enqueued identified shares all none root inner
      obtain ⟨id,visit,text⟩ := List.mem_map.mp once
      obtain ⟨f,path,err,happened,rfl⟩ := mem_visited.mp visit
      rw [Objects.String_injective (identified f (sound.invariant.visited f path err happened)) (identified e ⟨r,root,inner⟩) text] at visit
      exact List.count_eq_one_of_mem nodup visit
    · intro id visit
      obtain ⟨e,path,err,happened,is⟩ := mem_visited.mp visit
      exact ⟨e,sound.invariant.visited e path err happened,is⟩
  · have bound := Library.Calls.run_length weight lowers reached
    omega

/-- A directory with one file under two names. -/
def twice : List (Entry × String) :=
  [(.directory "x" ⟨⟨107,[1]⟩,0,false⟩ [.leaf "a" ⟨⟨0,[2]⟩,0,false⟩,.leaf "b" ⟨⟨0,[2]⟩,0,false⟩],"x")]

theorem reachable_twice {e : Entry} (reachable : Reachable twice e) :
    e = .directory "x" ⟨⟨107,[1]⟩,0,false⟩ [.leaf "a" ⟨⟨0,[2]⟩,0,false⟩,.leaf "b" ⟨⟨0,[2]⟩,0,false⟩] ∨
      e = .leaf "a" ⟨⟨0,[2]⟩,0,false⟩ ∨ e = .leaf "b" ⟨⟨0,[2]⟩,0,false⟩ := by
  obtain ⟨r,root,inner⟩ := reachable
  rw [List.mem_singleton.mp root] at inner
  induction inner with
  | root => exact .inl rfl
  | child _ listed ih =>
    rcases ih with rfl | rfl | rfl
    · simpa [Entry.entries] using Or.inr listed
    · exact absurd listed List.not_mem_nil
    · exact absurd listed List.not_mem_nil

theorem twice_identified : Identified twice := by
  intro e reachable
  rcases reachable_twice reachable with rfl | rfl | rfl
  · exact (by decide : (⟨107,[1]⟩ : Index.ID).Valid)
  · exact (by decide : (⟨0,[2]⟩ : Index.ID).Valid)
  · exact (by decide : (⟨0,[2]⟩ : Index.ID).Valid)

theorem twice_shares : Shares twice := by
  intro e f reachable known same c listed
  rcases reachable_twice reachable with rfl | rfl | rfl
  · rcases reachable_twice known with rfl | rfl | rfl
    · exact ⟨c,listed,rfl⟩
    · contradiction
    · contradiction
  · exact absurd listed List.not_mem_nil
  · exact absurd listed List.not_mem_nil

/-- The first file goes to the worker. -/
def twiceRun : List (Nat × Family.Position × Option Unit) :=
  [(0,.here,none)] ++ List.replicate 6 (0,.inside .here,none) ++ List.replicate 2 (0,.inside (.inside .here),none) ++
    List.replicate 6 (0,.inside .here,none) ++ [(0,.here,none)]

theorem visited_once_twice : ∃ c : Walks Unit,
    Runs.run (Library.Calls.step (act (NewTreeWalker 1 ⟨2,0⟩) (· ++ "/" ++ ·))) (start twice) twiceRun = some c ∧
    ((∀ call ∈ c.calls, outcome call = some .nil) →
      (∀ e, Reachable twice e → (visited c).count e.oid = 1) ∧ ∀ id ∈ visited c, ∃ e, Reachable twice e ∧ e.oid = id) ∧
    (∀ call ∈ c.calls, (∃ e ∈ call.log, e.failed = true) → ∀ result, outcome call = some result → result.isError = true) ∧
    twiceRun.length ≤ (start (ε := Unit) twice).total weight ∧
    ((∀ call ∈ c.calls, outcome call ≠ none) ∨
      ∃ l, Library.Calls.step (act (NewTreeWalker 1 ⟨2,0⟩) (· ++ "/" ++ ·)) c l ≠ none) :=
  ⟨_,rfl,visited_once 1 ⟨2,0⟩ (· ++ "/" ++ ·) twice twice_identified twice_shares twiceRun _ rfl⟩

end Claims

end Vbe.Snapshots.Walking
