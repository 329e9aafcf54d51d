import Vbe.Content.Iteration

/-! What becomes of the errors of the callback of an iteration. With workers they go through a channel
with one place, which every later invocation of the callback empties. -/
namespace Vbe.Content
open Vbe.Index Vbe.Library.Runs

inductive IterateError (ε : Type)
  | refreshing
  | callback (e : ε)
deriving DecidableEq

section Items

/-- Whether `invokeCallback` hands an entry on. -/
def WriteManager.delivers (bm : WriteManager) (opts : IterateOptions) (i : Info) : Bool :=
  (opts.includeDeleted || match bm.snapshotUncommittedItems.get? i.contentID with
    | some ci => !ci.deleted
    | none => !i.deleted) && opts.range.Contains i.contentID

def WriteManager.uncommittedItems (bm : WriteManager) (opts : IterateOptions) : List Info :=
  bm.snapshotUncommittedItems.infos.filter (bm.delivers opts.resolved)

/-- What the indexes hold after the refresh. The shortcut of an iteration without a filter delivers the same. -/
def WriteManager.committedItems (bm : WriteManager) (opts : IterateOptions) (refreshed : List Builder) : List Info :=
  ({ bm with committed := refreshed }.listContents opts.resolved.range).filter (bm.delivers opts.resolved)

theorem iterate_items (bm : WriteManager) (opts : IterateOptions) :
    bm.iterate opts = bm.uncommittedItems opts ++ bm.committedItems opts bm.committed := by
  have kept : opts.resolved.includeDeleted = opts.includeDeleted := by
    unfold IterateOptions.resolved
    split <;> rfl
  rw [WriteManager.iterate_eq,WriteManager.IterateContents,← kept]
  rfl

end Items

section Sequential
variable {ε : Type} (callback : List Info → Info → Option ε)

/-- Calls of the callback with what they return. A callback may depend on the calls before. -/
abbrev Calls (ε : Type) := List (Info × Option ε)

/-- The errors are ignored. -/
def invokeEach : List Info → List Info → Calls ε
  | _, [] => []
  | seen, i :: rest => (i,callback seen i) :: invokeEach (seen ++ [i]) rest

def invokeUntilError : List Info → List Info → Calls ε
  | _, [] => []
  | seen, i :: rest =>
    match callback seen i with
    | some e => [(i,some e)]
    | none => (i,none) :: invokeUntilError (seen ++ [i]) rest

/-- `IterateContents` without workers. The uncommitted items come in the order of a map. -/
def IterateContentsSequentially (uncommitted : List Info) (committed : Option (List Info)) :
    Calls ε × Option (IterateError ε) :=
  let first := invokeEach callback [] uncommitted
  match committed with
  | none => (first,some .refreshing)
  | some committed =>
    let second := invokeUntilError callback uncommitted committed
    (first ++ second,(second.findSome? Prod.snd).map .callback)

variable {callback}

/-- The first error is returned, and nothing is delivered after it. -/
def StopsAtFirstError (result : Calls ε × Option (IterateError ε)) : Prop :=
  ∀ before i e after, result.1 = before ++ (i,some e) :: after → after = [] ∧ result.2 = some (.callback e)

theorem invokeUntilError_stops {seen items : List Info} {before : Calls ε} {i : Info} {e : ε} {after : Calls ε}
    (called : invokeUntilError callback seen items = before ++ (i,some e) :: after) :
    after = [] ∧ (invokeUntilError callback seen items).findSome? Prod.snd = some e := by
  induction items generalizing seen before with
  | nil => simp [invokeUntilError] at called
  | cons j items ih =>
    unfold invokeUntilError at called ⊢
    split at called
    next e' failed =>
      cases before with
      | nil =>
        obtain ⟨same,rfl⟩ := List.cons.inj called
        obtain ⟨rfl,equal⟩ := Prod.mk.inj same
        simpa [failed] using equal
      | cons c before => simp at called
    next passed =>
      cases before with
      | nil => simp at called
      | cons c before =>
        obtain ⟨_,rest⟩ := List.cons.inj called
        obtain ⟨none,found⟩ := ih rest
        exact ⟨none,by simpa [passed] using found⟩

theorem sequential_stops_iff {uncommitted : List Info} {committed : Option (List Info)} :
    StopsAtFirstError (IterateContentsSequentially callback uncommitted committed) ↔
      ∀ c ∈ invokeEach callback [] uncommitted, c.2 = none := by
  constructor
  · rintro stops ⟨i,result⟩ member
    cases result with
    | none => rfl
    | some e =>
      obtain ⟨before,after,split⟩ := List.append_of_mem member
      cases committed with
      | none => exact nomatch (stops before i e after split).2
      | some committed =>
        have called : (IterateContentsSequentially callback uncommitted (some committed)).1 =
            before ++ (i,some e) :: (after ++ invokeUntilError callback uncommitted committed) := by
          simp [IterateContentsSequentially,split]
        obtain ⟨none,returned⟩ := stops before i e _ called
        simp [IterateContentsSequentially,(List.append_eq_nil_iff.mp none).2] at returned
  · intro passed before i e after called
    have absent : (i,some e) ∉ invokeEach callback [] uncommitted := fun member => nomatch passed _ member
    cases committed with
    | none =>
      have all : invokeEach callback [] uncommitted = before ++ (i,some e) :: after := called
      rw [all] at absent
      exact absurd List.mem_append_cons_self absent
    | some committed =>
      have second : ∃ rest, invokeUntilError callback uncommitted committed = rest ++ (i,some e) :: after := by
        rcases List.append_eq_append_iff.mp (called : _ ++ _ = _ ++ _) with ⟨rest,_,second⟩ | ⟨rest,first,second⟩
        · exact ⟨rest,second⟩
        · cases rest with
          | nil => exact ⟨[],second.symm⟩
          | cons c rest =>
            obtain ⟨rfl,_⟩ := List.cons.inj second
            rw [first] at absent
            exact absurd List.mem_append_cons_self absent
      obtain ⟨rest,second⟩ := second
      obtain ⟨none,found⟩ := invokeUntilError_stops second
      exact ⟨none,by simp [IterateContentsSequentially,found]⟩

end Sequential

section Workers
variable {ε : Type}

structure Item where
  info : Info
  committed : Bool
deriving DecidableEq

/-- Where `IterateContents` is: before the next content, between handing it over and looking for errors, in `cleanup`
with what was returned so far, or at its end. -/
inductive Main (ε : Type)
  | sending
  | checking (committed : Bool)
  | closing (err : Option (IterateError ε))
  | returned (err : Option (IterateError ε))
deriving DecidableEq

structure Iteration (ε : Type) where
  main : Main ε
  uncommitted : List Info
  /-- The committed contents that are left, once the indexes are refreshed. -/
  committed : Option (List Info)
  workch : List Item
  /-- What workers call the callback with. -/
  busy : List Item
  /-- Errors that workers are about to send. -/
  failing : List ε
  workererrch : Option ε
  calls : List (Item × Option ε)
deriving DecidableEq

def Iteration.start (uncommitted : List Info) : Iteration ε := ⟨.sending,uncommitted,none,[],[],[],none,[]⟩

inductive IterateLabel (ε : Type)
  | push
  | check
  | refresh (refreshed : Option (List Builder))
  | close
  | wait
  | take
  /-- The n-th call that is being made returns. -/
  | result (n : Nat) (r : Option ε)
  | send (n : Nat)

/-- An iteration with workers. Errors that `check` takes out for uncommitted contents are ignored. -/
def Iteration.step (bm : WriteManager) (opts : IterateOptions) (parallel : Nat) (s : Iteration ε) : IterateLabel ε → Option (Iteration ε)
  | .push =>
    match s.main, s.uncommitted, s.committed with
    | .sending, i :: rest, _ =>
      if s.workch.length < parallel then
        some { s with main := .checking false, uncommitted := rest, workch := s.workch ++ [⟨i,false⟩] }
      else none
    | .sending, [], some (i :: rest) =>
      if s.workch.length < parallel then
        some { s with main := .checking true, committed := some rest, workch := s.workch ++ [⟨i,true⟩] }
      else none
    | _, _, _ => none
  | .check =>
    match s.main, s.workererrch with
    | .checking false, _ => some { s with main := .sending, workererrch := none }
    | .checking true, some e => some { s with main := .closing (some (.callback e)), workererrch := none }
    | .checking true, none => some { s with main := .sending }
    | _, _ => none
  | .refresh refreshed =>
    match s.main, s.uncommitted, s.committed with
    | .sending, [], none =>
      match refreshed with
      | none => some { s with main := .closing (some .refreshing) }
      | some refreshed => some { s with committed := some (bm.committedItems opts refreshed) }
    | _, _, _ => none
  | .close =>
    match s.main, s.uncommitted, s.committed with
    | .sending, [], some [] => some { s with main := .closing none }
    | _, _, _ => none
  | .wait =>
    match s.main, s.workch, s.busy, s.failing with
    | .closing err, [], [], [] =>
      some { s with main := .returned (err.or (s.workererrch.map .callback)), workererrch := none }
    | _, _, _, _ => none
  | .take =>
    match s.workch with
    | [] => none
    | i :: rest => if s.busy.length + s.failing.length < parallel then some { s with workch := rest, busy := s.busy ++ [i] } else none
  | .result n r =>
    match s.busy[n]? with
    | none => none
    | some i => some { s with busy := s.busy.eraseIdx n, failing := s.failing ++ r.toList, calls := s.calls ++ [(i,r)] }
  | .send n =>
    match s.failing[n]? with
    | none => none
    | some e => some { s with failing := s.failing.eraseIdx n, workererrch := s.workererrch.or (some e) }

/-- An error is on its way to the caller or has been returned. -/
def Iteration.Pending (s : Iteration ε) : Prop :=
  s.workererrch ≠ none ∨ s.failing ≠ [] ∨ (∃ e, s.main = .closing (some e)) ∨ ∃ e, s.main = .returned (some e)

/-- Every committed content is somewhere on its way. -/
def Iteration.OnItsWay (s : Iteration ε) (i : Info) : Prop :=
  (∃ rest, s.committed = some rest ∧ i ∈ rest) ∨ ⟨i,true⟩ ∈ s.workch ∨ ⟨i,true⟩ ∈ s.busy ∨ ∃ r, (⟨i,true⟩,r) ∈ s.calls

structure Iteration.Inv (s : Iteration ε) : Prop where
  /-- An error of a committed content is not lost. -/
  kept : (∃ c ∈ s.calls, c.1.committed = true ∧ c.2 ≠ none) → s.Pending
  /-- Committed contents are handed over after the refresh. -/
  early : s.committed = none → (∀ i ∈ s.workch, i.committed = false) ∧ (∀ i ∈ s.busy, i.committed = false) ∧
    ∀ c ∈ s.calls, c.1.committed = false
  handed : s.committed ≠ none → s.uncommitted = []
  checking : ∀ committed, s.main = .checking committed → (committed = false ↔ s.committed = none)
  closing : s.main = .closing none → s.committed = some []
  returned : s.main = .returned none → s.committed = some [] ∧ s.workch = [] ∧ s.busy = [] ∧ s.failing = [] ∧ s.workererrch = none

variable {bm : WriteManager} {opts : IterateOptions} {parallel : Nat} {s t : Iteration ε} {l : IterateLabel ε}

theorem Iteration.Inv.start (uncommitted : List Info) : (Iteration.start uncommitted : Iteration ε).Inv where
  kept := by simp [Iteration.start]
  early := by simp [Iteration.start]
  handed := by simp [Iteration.start]
  checking := by simp [Iteration.start]
  closing := by simp [Iteration.start]
  returned := by simp [Iteration.start]

theorem Iteration.Inv.step (inv : s.Inv) (taken : s.step bm opts parallel l = some t) : t.Inv := by
  obtain ⟨kept,early,handed,checking,closing,returned⟩ := inv
  cases l with
  | push =>
    simp only [Iteration.step] at taken
    split at taken
    next i rest sending first =>
      obtain ⟨room,same⟩ := Option.ite_none_right_eq_some.mp taken
      obtain rfl := Option.some.inj same
      constructor <;> grind [Iteration.Pending]
    next sending none second =>
      obtain ⟨room,same⟩ := Option.ite_none_right_eq_some.mp taken
      obtain rfl := Option.some.inj same
      constructor <;> grind [Iteration.Pending]
    next => exact nomatch taken
  | check =>
    simp only [Iteration.step] at taken
    split at taken
    next => obtain rfl := Option.some.inj taken; constructor <;> grind [Iteration.Pending]
    next => obtain rfl := Option.some.inj taken; constructor <;> grind [Iteration.Pending]
    next => obtain rfl := Option.some.inj taken; constructor <;> grind [Iteration.Pending]
    next => exact nomatch taken
  | refresh refreshed =>
    simp only [Iteration.step] at taken
    split at taken
    next =>
      split at taken
      next => obtain rfl := Option.some.inj taken; constructor <;> grind [Iteration.Pending]
      next => obtain rfl := Option.some.inj taken; constructor <;> grind [Iteration.Pending]
    next => exact nomatch taken
  | close =>
    simp only [Iteration.step] at taken
    split at taken
    next => obtain rfl := Option.some.inj taken; constructor <;> grind [Iteration.Pending]
    next => exact nomatch taken
  | wait =>
    simp only [Iteration.step] at taken
    split at taken
    next err ended _ _ _ =>
      obtain rfl := Option.some.inj taken
      cases err <;> cases sent : s.workererrch <;> constructor <;> grind [Iteration.Pending]
    next => exact nomatch taken
  | take =>
    simp only [Iteration.step] at taken
    split at taken
    next => exact nomatch taken
    next =>
      obtain ⟨room,same⟩ := Option.ite_none_right_eq_some.mp taken
      obtain rfl := Option.some.inj same
      constructor <;> grind [Iteration.Pending]
  | result n r =>
    simp only [Iteration.step] at taken
    split at taken
    next => exact nomatch taken
    next =>
      obtain rfl := Option.some.inj taken
      cases r with
      | none => constructor <;> grind [Iteration.Pending,List.mem_of_getElem?,List.mem_of_mem_eraseIdx]
      | some e =>
        constructor
        case kept => exact fun _ => .inr (.inl (by simp))
        all_goals grind [List.mem_of_getElem?,List.mem_of_mem_eraseIdx]
  | send n =>
    simp only [Iteration.step] at taken
    split at taken
    next => exact nomatch taken
    next => obtain rfl := Option.some.inj taken; constructor <;> grind [Iteration.Pending]

/-- Once the indexes are refreshed, what they hold is delivered. -/
theorem Iteration.onItsWay_step {refreshed : List Builder} {i : Info}
    (inv : s.committed ≠ none → i ∈ bm.committedItems opts refreshed → s.OnItsWay i)
    (same : ∀ r, l = .refresh (some r) → r = refreshed) (taken : s.step bm opts parallel l = some t) :
    t.committed ≠ none → i ∈ bm.committedItems opts refreshed → t.OnItsWay i := by
  intro after member
  cases l with
  | push =>
    simp only [Iteration.step] at taken
    split at taken
    next =>
      obtain ⟨_,same⟩ := Option.ite_none_right_eq_some.mp taken
      obtain rfl := Option.some.inj same
      grind [Iteration.OnItsWay]
    next =>
      obtain ⟨_,same⟩ := Option.ite_none_right_eq_some.mp taken
      obtain rfl := Option.some.inj same
      grind [Iteration.OnItsWay]
    next => exact nomatch taken
  | check =>
    simp only [Iteration.step] at taken
    split at taken
    next =>
      obtain rfl := Option.some.inj taken
      exact inv after member
    next =>
      obtain rfl := Option.some.inj taken
      exact inv after member
    next =>
      obtain rfl := Option.some.inj taken
      exact inv after member
    next => exact nomatch taken
  | refresh r =>
    simp only [Iteration.step] at taken
    split at taken
    next =>
      split at taken
      next =>
        obtain rfl := Option.some.inj taken
        exact inv after member
      next r =>
        obtain rfl := Option.some.inj taken
        exact .inl ⟨_,rfl,same r rfl ▸ member⟩
    next => exact nomatch taken
  | close =>
    simp only [Iteration.step] at taken
    split at taken
    next =>
      obtain rfl := Option.some.inj taken
      exact inv after member
    next => exact nomatch taken
  | wait =>
    simp only [Iteration.step] at taken
    split at taken
    next =>
      obtain rfl := Option.some.inj taken
      exact inv after member
    next => exact nomatch taken
  | take =>
    simp only [Iteration.step] at taken
    split at taken
    next => exact nomatch taken
    next =>
      obtain ⟨_,same⟩ := Option.ite_none_right_eq_some.mp taken
      obtain rfl := Option.some.inj same
      grind [Iteration.OnItsWay]
  | result n r =>
    simp only [Iteration.step] at taken
    split at taken
    next => exact nomatch taken
    next j called =>
      obtain rfl := Option.some.inj taken
      rcases inv after member with rest | queued | busy | ⟨r',done⟩
      · exact .inl rest
      · exact .inr (.inl queued)
      · by_cases own : j = ⟨i,true⟩
        · exact .inr (.inr (.inr ⟨r,by simp [own]⟩))
        · obtain ⟨k,there⟩ := List.mem_iff_getElem?.mp busy
          refine .inr (.inr (.inl (List.mem_eraseIdx_iff_getElem?.mpr ⟨k,?_,there⟩)))
          rintro rfl
          exact own (Option.some.inj (called.symm.trans there))
      · exact .inr (.inr (.inr ⟨r',by simp [done]⟩))
  | send n =>
    simp only [Iteration.step] at taken
    split at taken
    next => exact nomatch taken
    next =>
      obtain rfl := Option.some.inj taken
      exact inv after member

/-- The callback returns what a function says, and the indexes hold what was expected after the refresh. -/
def Iteration.Follows (f : Info → Option ε) (refreshed : List Builder) (s : Iteration ε) : IterateLabel ε → Prop
  | .result n r => ∀ i, s.busy[n]? = some i → r = f i.info
  | .refresh (some r) => r = refreshed
  | _ => True

theorem Iteration.calls_step {f : Info → Option ε} {refreshed : List Builder} (inv : ∀ c ∈ s.calls, c.2 = f c.1.info)
    (follows : s.Follows f refreshed l) (taken : s.step bm opts parallel l = some t) : ∀ c ∈ t.calls, c.2 = f c.1.info := by
  cases l with
  | result n r =>
    simp only [Iteration.step] at taken
    split at taken
    next => exact nomatch taken
    next i called =>
      obtain rfl := Option.some.inj taken
      intro c member
      rcases List.mem_append.mp member with old | new
      · exact inv c old
      · obtain rfl := List.mem_singleton.mp new
        exact follows i called
  | _ =>
    simp only [Iteration.step] at taken
    grind

/-- What is marked as uncommitted was so at the start. -/
structure Iteration.From (order : List Info) (s : Iteration ε) : Prop where
  uncommitted : ∀ i ∈ s.uncommitted, i ∈ order
  workch : ∀ i ∈ s.workch, i.committed = false → i.info ∈ order
  busy : ∀ i ∈ s.busy, i.committed = false → i.info ∈ order
  calls : ∀ c ∈ s.calls, c.1.committed = false → c.1.info ∈ order

theorem Iteration.From.step {order : List Info} (origin : s.From order) (taken : s.step bm opts parallel l = some t) : t.From order := by
  obtain ⟨uncommitted,workch,busy,calls⟩ := origin
  cases l with
  | result n r =>
    simp only [Iteration.step] at taken
    split at taken
    next => exact nomatch taken
    next i called =>
      obtain rfl := Option.some.inj taken
      constructor <;> grind [List.mem_of_getElem?,List.mem_of_mem_eraseIdx]
  | _ =>
    simp only [Iteration.step] at taken
    constructor <;> grind

section Swallowing
variable {f : Info → Option ε} {refreshed : List Builder}

/-- The labels of a worker that calls the callback at once, and of the check after it. -/
def handled (f : Info → Option ε) (i : Info) : List (IterateLabel ε) :=
  [.push,.take,.result 0 (f i)] ++ (if (f i).isSome then [.send 0] else []) ++ [.check]

def Iteration.resting (uncommitted : List Info) (committed : Option (List Info)) (calls : List (Item × Option ε)) : Iteration ε :=
  ⟨.sending,uncommitted,committed,[],[],[],none,calls⟩

variable (bm opts f refreshed) in
theorem run_handled_uncommitted (room : 1 < parallel) (i : Info) (rest : List Info) (calls : List (Item × Option ε)) :
    run (Iteration.step bm opts parallel) (.resting (i :: rest) none calls) (handled f i) =
      some (.resting rest none (calls ++ [(⟨i,false⟩,f i)])) ∧
    Meets (Iteration.step bm opts parallel) (Iteration.Follows f refreshed) (.resting (i :: rest) none calls) (handled f i) := by
  have room' : 0 < parallel := by omega
  cases result : f i with
  | none => simp [handled,result,run,Iteration.step,Iteration.resting,room',Meets,Iteration.Follows]
  | some e => simp [handled,result,run,Iteration.step,Iteration.resting,room',Meets,Iteration.Follows]

variable (bm opts refreshed) in
theorem run_handled_committed (room : 1 < parallel) (i : Info) (rest : List Info) (calls : List (Item × Option ε)) (passes : f i = none) :
    run (Iteration.step bm opts parallel) (.resting [] (some (i :: rest)) calls) (handled f i) =
      some (.resting [] (some rest) (calls ++ [(⟨i,true⟩,none)])) ∧
    Meets (Iteration.step bm opts parallel) (Iteration.Follows f refreshed) (.resting [] (some (i :: rest)) calls) (handled f i) := by
  have room' : 0 < parallel := by omega
  simp [handled,passes,run,Iteration.step,Iteration.resting,room',Meets,Iteration.Follows]

variable (bm opts f refreshed) in
theorem run_uncommitted (room : 1 < parallel) (uncommitted : List Info) (calls : List (Item × Option ε)) :
    run (Iteration.step bm opts parallel) (.resting uncommitted none calls) (uncommitted.flatMap (handled f)) =
      some (.resting [] none (calls ++ uncommitted.map fun i => (⟨i,false⟩,f i))) ∧
    Meets (Iteration.step bm opts parallel) (Iteration.Follows f refreshed) (.resting uncommitted none calls)
      (uncommitted.flatMap (handled f)) := by
  induction uncommitted generalizing calls with
  | nil => exact ⟨by simp [run],trivial⟩
  | cons i rest ih =>
    obtain ⟨reached,follows⟩ := run_handled_uncommitted bm opts f refreshed room i rest calls
    obtain ⟨reached',follows'⟩ := ih (calls ++ [(⟨i,false⟩,f i)])
    rw [List.flatMap_cons]
    refine ⟨?_,follows.concat reached follows'⟩
    rw [run_append,reached,Option.bind_some,reached',List.map_cons,List.append_assoc,List.singleton_append]

variable (bm opts refreshed) in
theorem run_committed (room : 1 < parallel) (committed : List Info) (calls : List (Item × Option ε)) (pass : ∀ i ∈ committed, f i = none) :
    run (Iteration.step bm opts parallel) (.resting [] (some committed) calls) (committed.flatMap (handled f)) =
      some (.resting [] (some []) (calls ++ committed.map fun i => (⟨i,true⟩,none))) ∧
    Meets (Iteration.step bm opts parallel) (Iteration.Follows f refreshed) (.resting [] (some committed) calls)
      (committed.flatMap (handled f)) := by
  induction committed generalizing calls with
  | nil => exact ⟨by simp [run],trivial⟩
  | cons i rest ih =>
    obtain ⟨passes,others⟩ := List.forall_mem_cons.mp pass
    obtain ⟨reached,follows⟩ := run_handled_committed bm opts refreshed room i rest calls passes
    obtain ⟨reached',follows'⟩ := ih (calls ++ [(⟨i,true⟩,none)]) others
    rw [List.flatMap_cons]
    refine ⟨?_,follows.concat reached follows'⟩
    rw [run_append,reached,Option.bind_some,reached',List.map_cons,List.append_assoc,List.singleton_append]

/-- A schedule by which every error of an uncommitted content is taken out for an uncommitted content. -/
theorem exists_swallowing (room : 1 < parallel) (uncommitted : List Info) (pass : ∀ i ∈ bm.committedItems opts refreshed, f i = none) :
    ∃ labels t, Meets (Iteration.step bm opts parallel) (Iteration.Follows f refreshed) (Iteration.start uncommitted) labels ∧
      run (Iteration.step bm opts parallel) (Iteration.start uncommitted) labels = some t ∧ t.main = .returned none ∧
      ∀ i ∈ uncommitted, (⟨i,false⟩,f i) ∈ t.calls := by
  let committed := bm.committedItems opts refreshed
  let calls : List (Item × Option ε) := uncommitted.map fun i => (⟨i,false⟩,f i)
  obtain ⟨first,follows⟩ := run_uncommitted bm opts f refreshed room uncommitted []
  obtain ⟨second,follows'⟩ := run_committed bm opts refreshed room committed calls pass
  have middle : Iteration.step bm opts parallel (.resting [] none calls) (.refresh (some refreshed)) =
      some (.resting [] (some committed) calls) := rfl
  let ended : Iteration ε := ⟨.returned none,[],some [],[],[],[],none,calls ++ committed.map fun i => (⟨i,true⟩,none)⟩
  have last : run (Iteration.step bm opts parallel) (.resting [] (some []) (calls ++ committed.map fun i => (⟨i,true⟩,none)))
      [.close,.wait] = some ended := rfl
  refine ⟨uncommitted.flatMap (handled f) ++ .refresh (some refreshed) :: (committed.flatMap (handled f) ++ [.close,.wait]),
    ended,?_,?_,rfl,?_⟩
  · exact follows.concat first (.cons rfl middle (follows'.concat second ⟨trivial,fun _ _ => ⟨trivial,fun _ _ => trivial⟩⟩))
  · exact run_append.trans (first ▸ (run_cons middle).trans (run_append.trans (second ▸ last)))
  · intro i member
    exact List.mem_append_left _ (List.mem_map.mpr ⟨i,member,rfl⟩)

end Swallowing

/-- What a run with workers says of errors. -/
def Iteration.Swallows (s : Iteration ε) : Prop := s.main = .returned none ∧ ∃ c ∈ s.calls, c.2 ≠ none

/-- An error of a committed content is returned. -/
theorem run_returns {uncommitted : List Info} {labels : List (IterateLabel ε)}
    (reached : run (Iteration.step bm opts parallel) (.start uncommitted) labels = some s) (ended : s.main = .returned none) :
    ∀ c ∈ s.calls, c.1.committed = true → c.2 = none := by
  have inv : s.Inv := invariant (fun _ _ _ inv _ taken => inv.step taken) (.start uncommitted) (meets_true _ _) reached
  obtain ⟨_,_,_,sent,slot⟩ := inv.returned ended
  by_contra failed
  push Not at failed
  rcases inv.kept failed with some | some | ⟨e,closing⟩ | ⟨e,returned⟩
  · exact some slot
  · exact some sent
  · exact nomatch ended.symm.trans closing
  · exact nomatch ended.symm.trans returned

theorem run_delivers {uncommitted : List Info} {labels : List (IterateLabel ε)} {f : Info → Option ε} {refreshed : List Builder}
    (follows : Meets (Iteration.step bm opts parallel) (Iteration.Follows f refreshed) (.start uncommitted) labels)
    (reached : run (Iteration.step bm opts parallel) (.start uncommitted) labels = some s) (ended : s.main = .returned none) :
    (∀ c ∈ s.calls, c.2 = f c.1.info) ∧ ∀ i ∈ bm.committedItems opts refreshed, ∃ r, (⟨i,true⟩,r) ∈ s.calls := by
  have inv : s.Inv := invariant (fun _ _ _ inv _ taken => inv.step taken) (.start uncommitted) (meets_true _ _) reached
  obtain ⟨all,queued,busy,_,_⟩ := inv.returned ended
  have called := @invariant _ _ _ _ (fun s : Iteration ε => ∀ c ∈ s.calls, c.2 = f c.1.info)
    (fun _ _ _ inv follows taken => Iteration.calls_step inv follows taken) _ _ _ (by simp [Iteration.start]) follows reached
  refine ⟨called,fun i member => ?_⟩
  have way := @invariant _ _ _ _ (fun s : Iteration ε => s.committed ≠ none → i ∈ bm.committedItems opts refreshed → s.OnItsWay i)
    (fun _ _ _ inv follows taken => Iteration.onItsWay_step inv (fun r same => by subst same; exact follows) taken)
    _ _ _ (by simp [Iteration.start]) follows reached
  rcases way (by simp [all]) member with ⟨rest,left,inside⟩ | waiting | calling | done
  · cases Option.some.inj (all.symm.trans left)
    exact nomatch inside
  · exact nomatch queued ▸ waiting
  · exact nomatch busy ▸ calling
  · exact done

end Workers

/-- Errors of committed contents are returned. Without workers those of uncommitted contents never are; with workers
a schedule loses them unless a committed content has one too. -/
theorem iteration_returns_errors_iff {ε : Type} (bm : WriteManager) (opts : IterateOptions) (order : List Info)
    (perm : order.Perm (bm.uncommittedItems opts)) :
    (∀ (callback : List Info → Info → Option ε) (refreshed : Option (List Builder)),
      StopsAtFirstError (IterateContentsSequentially callback order (refreshed.map (bm.committedItems opts))) ↔
        ∀ c ∈ invokeEach callback [] order, c.2 = none) ∧
    ∀ parallel, 1 < parallel →
      (∀ (labels : List (IterateLabel ε)) (s : Iteration ε), run (Iteration.step bm opts parallel) (.start order) labels = some s →
        ((∀ c ∈ s.calls, c.1.committed = false → c.2 = none) ∨ ∃ c ∈ s.calls, c.1.committed = true ∧ c.2 ≠ none) → ¬ s.Swallows) ∧
      ∀ (f : Info → Option ε) (refreshed : List Builder),
        (∀ (labels : List (IterateLabel ε)) (s : Iteration ε),
          Meets (Iteration.step bm opts parallel) (Iteration.Follows f refreshed) (.start order) labels →
          run (Iteration.step bm opts parallel) (.start order) labels = some s → ¬ s.Swallows) ↔
        ((∀ i ∈ bm.uncommittedItems opts, f i = none) ∨ ∃ i ∈ bm.committedItems opts refreshed, f i ≠ none) := by
  refine ⟨fun callback refreshed => sequential_stops_iff,fun parallel room => ⟨?_,fun f refreshed => ⟨?_,?_⟩⟩⟩
  · rintro labels s reached condition ⟨ended,c,member,failed⟩
    have passed := run_returns reached ended
    rcases condition with uncommitted | ⟨c',member',own,failed'⟩
    · cases own : c.1.committed with
      | false => exact failed (uncommitted c member own)
      | true => exact failed (passed c member own)
    · exact failed' (passed c' member' own)
  · intro returns
    by_contra condition
    push Not at condition
    obtain ⟨⟨i,inside,failed⟩,pass⟩ := condition
    obtain ⟨labels,t,follows,reached,ended,called⟩ := exists_swallowing room order pass
    exact returns labels t follows reached ⟨ended,_,called i (perm.mem_iff.mpr inside),failed⟩
  · rintro condition labels s follows reached ⟨ended,c,member,failed⟩
    have passed := run_returns reached ended
    obtain ⟨called,delivered⟩ := run_delivers follows reached ended
    rcases condition with uncommitted | ⟨i,inside,failed'⟩
    · cases own : c.1.committed with
      | false =>
        have origin : s.From order := invariant (fun _ _ _ origin _ taken => origin.step taken)
          ⟨fun _ there => there,by simp [Iteration.start],by simp [Iteration.start],by simp [Iteration.start]⟩ (meets_true _ _) reached
        exact failed ((called c member).trans (uncommitted _ (perm.mem_iff.mp (origin.calls c member own))))
      | true => exact failed (passed c member own)
    · obtain ⟨r,done⟩ := delivered i inside
      exact failed' ((called _ done).symm.trans (passed _ done rfl))

section Examples

def uncommittedInfo : Info := ⟨[112,0],5,1,1,0,0,⟨0,[1]⟩,false,2,0⟩

/-- A manager that has uploaded a pack with one content and not yet written the index. -/
def uploadedManager : WriteManager := { NewWriteManager 0 [] 0 fun _ => none with packIndexBuilder := Builder.empty.set uncommittedInfo }

def allContents : IterateOptions := ⟨false,⟨[],[]⟩⟩

theorem uploadedManager_items : uploadedManager.uncommittedItems allContents = [uncommittedInfo] := by decide

theorem iteration_returns_no_errors :
    StopsAtFirstError (IterateContentsSequentially (fun _ _ => some ()) [uncommittedInfo] (some (uploadedManager.committedItems allContents []))) ↔
      ∀ c ∈ invokeEach (fun _ _ => some ()) [] [uncommittedInfo], c.2 = none :=
  (iteration_returns_errors_iff uploadedManager allContents [uncommittedInfo] (by rw [uploadedManager_items])).1
    (fun _ _ => some ()) (some [])

/-- The error of the only content, which is not committed, is swallowed. -/
theorem iteration_swallows_error : ¬ ∀ (ε : Type) (bm : WriteManager) (opts : IterateOptions) (order : List Info),
    order.Perm (bm.uncommittedItems opts) → ∀ (callback : List Info → Info → Option ε) (refreshed : List Builder),
    (∃ c ∈ (IterateContentsSequentially callback order (some (bm.committedItems opts refreshed))).1, c.2 ≠ none) →
      (IterateContentsSequentially callback order (some (bm.committedItems opts refreshed))).2 ≠ none := by
  intro claim
  exact claim Unit uploadedManager allContents [uncommittedInfo] (by rw [uploadedManager_items]) (fun _ _ => some ()) []
    ⟨(uncommittedInfo,some ()),List.mem_cons_self,nofun⟩ rfl

end Examples

end Vbe.Content
