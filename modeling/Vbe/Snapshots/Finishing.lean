import Vbe.Snapshots.Restore

/-! Which entries a restore still owes to which directories: what a directory counts is what is in the queue, in work or in
directories that are open. -/
namespace Vbe.Snapshots.Restoring
open Vbe.Library Vbe.Parallelwork

variable {paths : Paths} {options : Options}

section Owing

def owes (P : Nat × Nat → Bool) (c : Completion) : Nat := (c.any P).toNat

def itemOwes (P : Nat × Nat → Bool) (i : Item) : Nat := owes P i.onCompletion

def placeOwes (P : Nat × Nat → Bool) : Place → Nat
  | .copyEntry i | .incremental i | .copyEntryInternal i => itemOwes P i
  | .enqueue dir entries _ => entries.countP fun e => P (dir,e.2)
  | .complete c => owes P c
  | .copyDirectoryContent _ _ | .finish _ => 0

/-- A directory that is not finished is owed to the one above. -/
def dirOwes (P : Nat × Nat → Bool) (d : Dir) : Nat := if d.finished = 0 then owes P d.onCompletion else 0

/-- How many of some entries are owed. -/
def owed (P : Nat × Nat → Bool) (q : Queue Item Place Copier) : Nat :=
  q.total (itemOwes P) (placeOwes P) + (q.shared.dirs.map (dirOwes P)).sum

/-- A worker reads or finishes a directory. -/
def attends (k : Nat) : Place → Nat
  | .copyDirectoryContent dir _ | .finish dir => (dir == k).toNat
  | _ => 0

def attended (k : Nat) (q : Queue Item Place Copier) : Nat := q.total (fun _ => 0) (attends k)

end Owing

section Actions

/-- What a worker can do without returning an error. -/
inductive Acts (s : Copier) : Place → Outcome → Prop
  /-- The entry goes on to another place, is handled or its error is ignored. -/
  | cancelled (i how) : Acts s (.copyEntry i) ⟨s.handled i.onCompletion how,.inl (.complete i.onCompletion),[],[]⟩
  | looks (i) : Acts s (.copyEntry i) ⟨s,.inl (.incremental i),[],[]⟩
  | skipped (i how) : Acts s (.incremental i) ⟨s.handled i.onCompletion how,.inl (.complete i.onCompletion),[],[]⟩
  | copies (i) : Acts s (.incremental i) ⟨s,.inl (.copyEntryInternal i),[],[]⟩
  | written (i how) : Acts s (.copyEntryInternal i) ⟨s.handled i.onCompletion how,.inl (.complete i.onCompletion),[],[]⟩
  | begins (i) : Acts s (.copyEntryInternal i)
      ⟨s.BeginDirectory i,.inl (.copyDirectoryContent s.dirs.length (i.currentdepth + 1)),[],[]⟩
  | empty (k depth) (d : Dir) (found : s.dirs[k]? = some d) (none : d.d.entries.length = 0) :
    Acts s (.copyDirectoryContent k depth) ⟨s,.inl (.finish k),[],[]⟩
  | counts (k depth) (d : Dir) (found : s.dirs[k]? = some d) (some : d.d.entries.length ≠ 0) :
    Acts s (.copyDirectoryContent k depth)
      ⟨s.setLeft k d d.d.entries.length,.inl (.enqueue k d.d.entries.zipIdx depth),[],[]⟩
  | enqueues (k e n entries depth) (i : Item) (front back : List Item) (c : i.onCompletion = some (k,n))
    (one : front ++ back = [i]) :
    Acts s (.enqueue k ((e,n) :: entries) depth) ⟨s,.inl (.enqueue k entries depth),front,back⟩
  | enqueued (k depth) : Acts s (.enqueue k [] depth) ⟨s,.inr true,[],[]⟩
  | root : Acts s (.complete none) ⟨s,.inr true,[],[]⟩
  | last (k n) (d : Dir) (left : Int) (found : s.dirs[k]? = some d) (counted : d.left = some left) (last : left - 1 = 0) :
    Acts s (.complete (some (k,n))) ⟨s.setLeft k d (left - 1),.inl (.finish k),[],[]⟩
  | one (k n) (d : Dir) (left : Int) (found : s.dirs[k]? = some d) (counted : d.left = some left) (more : left - 1 ≠ 0) :
    Acts s (.complete (some (k,n))) ⟨s.setLeft k d (left - 1),.inr true,[],[]⟩
  | finishes (k) (d : Dir) (found : s.dirs[k]? = some d) :
    Acts s (.finish k) ⟨s.FinishDirectory k d,.inl (.complete d.onCompletion),[],[]⟩
  | ignored (i) (root : i.onCompletion = none) :
    Acts s (.copyEntryInternal i) ⟨s.handled i.onCompletion .ignored,.inr true,[],[]⟩
  | unfinished (k) (d : Dir) (found : s.dirs[k]? = some d) (root : d.onCompletion = none) :
    Acts s (.finish k) ⟨(s.FinishDirectory k d).handled d.onCompletion .ignored,.inr true,[],[]⟩

theorem fails_cases {s : Copier} {c : Completion} {r : Outcome} (failed : fails options s c = some r) :
    r.next = .inr false ∨ (options.IgnoreErrors = true ∧ r = ⟨s.handled c .ignored,.inr true,[],[]⟩) := by
  rw [fails,returns] at failed
  cases ignores : options.IgnoreErrors with
  | false =>
    rw [ignores] at failed
    cases failed
    exact .inl rfl
  | true =>
    rw [ignores] at failed
    cases failed
    exact .inr ⟨rfl,rfl⟩

/-- A worker returns an error, or does one of those things. -/
theorem acts {s : Copier} {place : Place} {choice : Bool} {r : Outcome} (acted : act paths options s place choice = some r)
    (keeps : options.IgnoreErrors = true → Fails paths options choice place = true → Harmless s place) :
    r.next = .inr false ∨ Acts s place r := by
  cases place with
  | copyEntry i =>
    rw [act] at acted
    split at acted
    next =>
      cases acted
      exact .inr (.cancelled i _)
    next =>
      cases acted
      exact .inr (.looks i)
  | incremental i =>
    rw [act] at acted
    split at acted
    next =>
      cases acted
      exact .inr (.skipped i _)
    next =>
      cases acted
      exact .inr (.copies i)
  | copyEntryInternal i =>
    have ignored (fails_ : Fails paths options choice (.copyEntryInternal i) = true)
        (failed : fails options s i.onCompletion = some r) : r.next = .inr false ∨ Acts s (.copyEntryInternal i) r := by
      rcases fails_cases failed with error | ⟨ignores,rfl⟩
      · exact .inl error
      · exact .inr (.ignored i (keeps ignores fails_))
    rw [act] at acted
    rw [Fails] at ignored
    cases entry : i.e with
    | directory name has entries =>
      simp only [entry] at acted ignored
      split at acted
      next shallow =>
        split at acted
        next failing =>
          refine ignored ?_ acted
          rcases failing with unknown | chosen
          · simp [shallow.1,shallow.2,unknown]
          · simp [chosen]
        next =>
          cases acted
          exact .inr (.written i _)
      next =>
        split at acted
        next chosen => exact ignored (by simp [chosen]) acted
        next =>
          cases acted
          exact .inr (.begins i)
    | file name =>
      simp only [entry] at acted ignored
      split at acted
      next chosen => exact ignored chosen acted
      next =>
        cases acted
        exact .inr (.written i _)
    | symlink name =>
      simp only [entry] at acted ignored
      split at acted
      next chosen => exact ignored chosen acted
      next =>
        cases acted
        exact .inr (.written i _)
    | other name =>
      simp only [entry] at acted ignored
      exact ignored trivial acted
  | copyDirectoryContent k depth =>
    obtain ⟨d,found,acted⟩ := Option.bind_eq_some_iff.mp acted
    split at acted
    next chosen =>
      rcases fails_cases acted with error | ⟨ignores,_⟩
      · exact .inl error
      · exact (keeps ignores chosen).elim
    next =>
      split at acted
      next none =>
        cases acted
        exact .inr (.empty k depth d found none)
      next some =>
        cases acted
        exact .inr (.counts k depth d found some)
  | enqueue k entries depth =>
    cases entries with
    | nil =>
      cases acted
      exact .inr (.enqueued k depth)
    | cons e entries =>
      obtain ⟨e,n⟩ := e
      obtain ⟨d,found,acted⟩ := Option.bind_eq_some_iff.mp acted
      cases acted
      refine .inr (.enqueues k e n entries depth ⟨e,paths.Join d.targetPath e.name,depth,some (k,n)⟩ _ _ rfl ?_)
      cases e.IsDir <;> rfl
  | complete c =>
    cases c with
    | none =>
      cases acted
      exact .inr .root
    | some c =>
      obtain ⟨k,n⟩ := c
      obtain ⟨d,found,acted⟩ := Option.bind_eq_some_iff.mp acted
      obtain ⟨left,counted,acted⟩ := Option.bind_eq_some_iff.mp acted
      split at acted
      next last =>
        cases acted
        exact .inr (.last k n d left found counted last)
      next more =>
        cases acted
        exact .inr (.one k n d left found counted more)
  | finish k =>
    obtain ⟨d,found,acted⟩ := Option.bind_eq_some_iff.mp acted
    split at acted
    next chosen =>
      rcases fails_cases acted with error | ⟨ignores,rfl⟩
      · exact .inl error
      · exact .inr (.unfinished k d found (keeps ignores chosen d found))
    next =>
      cases acted
      exact .inr (.finishes k d found)

end Actions

section Balance

/-- What a worker completes, and what it finds. -/
def paid (P : Nat × Nat → Bool) : Place → Nat
  | .complete c => owes P c
  | _ => 0

def gained (P : Nat × Nat → Bool) (s : Copier) : Place → Nat
  | .copyDirectoryContent k _ => s.dirs[k]?.elim 0 fun d => d.d.entries.zipIdx.countP fun e => P (k,e.2)
  | _ => 0

variable {s : Copier} {place : Place} {r : Outcome}

/-- What is owed stays so until it is paid. -/
theorem Acts.owed (acts : Acts s place r) (P : Nat × Nat → Bool)
    (unfinished : ∀ k d, place = .finish k → s.dirs[k]? = some d → d.finished = 0) :
    (r.shared.dirs.map (dirOwes P)).sum + r.goesOn (placeOwes P) + ((r.front ++ r.back).map (itemOwes P)).sum + paid P place =
      (s.dirs.map (dirOwes P)).sum + placeOwes P place + gained P s place := by
  cases acts with
  | begins i => simp [Result.goesOn,placeOwes,itemOwes,paid,gained,Copier.BeginDirectory,dirOwes]
  | empty k depth d found none =>
    have entries : d.d.entries = [] := List.eq_nil_of_length_eq_zero none
    simp [Result.goesOn,placeOwes,paid,gained,found,entries]
  | counts k depth d found =>
    have same := Queue.sum_map_set (dirOwes P) found { d with left := some d.d.entries.length }
    simp only [Result.goesOn,placeOwes,paid,gained,found,Copier.setLeft,Option.elim_some,List.append_nil,List.map_nil,List.sum_nil]
    have equal : dirOwes P { d with left := some d.d.entries.length } = dirOwes P d := rfl
    omega
  | enqueues k e n entries depth i front back c one =>
    rw [one]
    simp only [Result.goesOn,placeOwes,paid,gained,itemOwes,c,owes,List.countP_cons,List.map_cons,List.map_nil,List.sum_singleton,Option.any_some]
    cases P (k,n) <;> simp; omega
  | last k n d left found counted =>
    have same := Queue.sum_map_set (dirOwes P) found { d with left := some (left - 1) }
    have equal : dirOwes P { d with left := some (left - 1) } = dirOwes P d := rfl
    simp only [Result.goesOn,placeOwes,paid,gained,Copier.setLeft,List.append_nil,List.map_nil,List.sum_nil]
    omega
  | one k n d left found counted =>
    have same := Queue.sum_map_set (dirOwes P) found { d with left := some (left - 1) }
    have equal : dirOwes P { d with left := some (left - 1) } = dirOwes P d := rfl
    simp only [Result.goesOn,placeOwes,paid,gained,Copier.setLeft,List.append_nil,List.map_nil,List.sum_nil]
    omega
  | finishes k d found =>
    have same := Queue.sum_map_set (dirOwes P) found { d with finished := d.finished + 1 }
    have open_ : dirOwes P d = owes P d.onCompletion := if_pos (unfinished k d rfl found)
    have closed : dirOwes P { d with finished := d.finished + 1 } = 0 := if_neg (Nat.succ_ne_zero _)
    simp only [Result.goesOn,placeOwes,paid,gained,Copier.FinishDirectory,List.append_nil,List.map_nil,List.sum_nil]
    omega
  | unfinished k d found root =>
    have same := Queue.sum_map_set (dirOwes P) found { d with finished := d.finished + 1 }
    have open_ : dirOwes P d = 0 := by simp [dirOwes,owes,root]
    have closed : dirOwes P { d with finished := d.finished + 1 } = 0 := if_neg (Nat.succ_ne_zero _)
    simp only [Result.goesOn,placeOwes,paid,gained,Copier.FinishDirectory,Copier.handled,List.append_nil,List.map_nil,List.sum_nil]
    omega
  | ignored i root => simp [Result.goesOn,placeOwes,itemOwes,paid,gained,Copier.handled,owes,root]
  | _ => simp [Result.goesOn,placeOwes,itemOwes,paid,gained,Copier.handled,owes]

end Balance

end Vbe.Snapshots.Restoring
