import Mathlib.Algebra.BigOperators.Group.List.Basic
import Mathlib.Algebra.GroupWithZero.Nat
import Mathlib.Data.List.Forall2
import Vbe.Library.Queries

/-! Programs that run at the same time. A loop starts them in their order, each with a worker of its own or in the loop itself,
which then goes on after the program's end, unless that stops the loop. -/
namespace Vbe.Library

variable {ι ρ ε α β : Type}

def Query.answer? : Query ι ρ ε α → Option α
  | .answer a => some a
  | _ => none

/-- Which of those that can go on does, and for the loop whether it finds a worker. -/
structure Turn where
  next : Nat
  shared : Bool

/-- Programs as far as they have got, and for those that have been started, whether a worker runs them. -/
structure Crew (ι ρ ε α : Type) where
  tasks : List (Query ι ρ ε α)
  shared : List Bool

namespace Crew

def of (tasks : List (Query ι ρ ε α)) : Crew ι ρ ε α := ⟨tasks,[]⟩

def started (g : Crew ι ρ ε α) : List (Query ι ρ ε α) := g.tasks.take g.shared.length

/-- The program that the loop runs itself, or ran last. -/
def own (g : Crew ι ρ ε α) : Option (Query ι ρ ε α) := if g.shared.getLast? = some false then g.started.getLast? else none

section Runs
variable (stop : α → Bool)

/-- The loop has come to its end. -/
def looped (g : Crew ι ρ ε α) : Bool := (g.own.bind Query.answer?).any stop || g.tasks.length ≤ g.shared.length

/-- The loop waits for the program that it runs. -/
def busy (g : Crew ι ρ ε α) : Bool := g.own.any fun task => task.answer?.isNone

/-- Those that can go on: the loop, and the programs that have been started and not ended. -/
def moves (g : Crew ι ρ ε α) : List (Option Nat) :=
  (if g.looped stop || g.busy then [] else [none]) ++
    ((List.range g.started.length).filter fun k => (g.started[k]?.bind Query.answer?).isNone).map some

/-- The answers of the programs that were started, once the loop and all of them have ended. -/
def answers? (g : Crew ι ρ ε α) : Option (List (Bool × α)) :=
  if g.looped stop then (g.started.mapM Query.answer?).map g.shared.zip else none

variable (stuck : ε) (turn : ι) (chosen : ρ → Option Turn)

def run : Nat → Crew ι ρ ε α → Query ι ρ ε (List (Bool × α))
  | 0, _ => .fail stuck
  | n + 1, g =>
    match g.answers? stop with
    | some answers => .answer answers
    | none => .ask turn fun reply =>
      match chosen reply with
      | none => .fail stuck
      | some t =>
        match (g.moves stop)[t.next % (g.moves stop).length]? with
        | none => .fail stuck
        | some none => run n { g with shared := g.shared ++ [t.shared] }
        | some (some k) =>
          match g.started[k]? with
          | some (.ask i next) => .ask i fun reply => run n { g with tasks := g.tasks.set k (next reply) }
          | some (.fail e) => .fail e
          | _ => .fail stuck

end Runs

section Rules
variable {stop : α → Bool} {stuck : ε} {turn : ι} {chosen : ρ → Option Turn} {n : Nat} {g : Crew ι ρ ε α}

/-- Not more programs are started than there are. -/
def Fits (g : Crew ι ρ ε α) : Prop := g.shared.length ≤ g.tasks.length

theorem fits_of (tasks : List (Query ι ρ ε α)) : (of tasks).Fits := Nat.zero_le _

/-- Whoever is next and can go on. -/
theorem mem_moves {move : Option Nat} (t : Turn) (chosen : (g.moves stop)[t.next % (g.moves stop).length]? = some move) :
    move ∈ g.moves stop := List.mem_of_getElem? chosen

theorem moves_none (move : none ∈ g.moves stop) : g.looped stop = false ∧ g.busy = false := by
  rw [moves,List.mem_append] at move
  rcases move with first | later
  · split at first
    next => exact absurd first List.not_mem_nil
    next free => simpa using free
  · obtain ⟨_,_,same⟩ := List.mem_map.mp later
    cases same

theorem fits_start (move : none ∈ g.moves stop) (shared : Bool) : Fits { g with shared := g.shared ++ [shared] } := by
  have free := (moves_none move).1
  rw [looped,Bool.or_eq_false_iff,decide_eq_false_iff_not] at free
  rw [Fits,List.length_append,List.length_singleton]
  exact Nat.not_le.mp free.2

theorem Fits.set (fits : Fits g) (k : Nat) (task : Query ι ρ ε α) : Fits { g with tasks := g.tasks.set k task } := by
  rw [Fits,List.length_set]
  exact fits

theorem started_get {k : Nat} {task : Query ι ρ ε α} (found : g.started[k]? = some task) : g.tasks[k]? = some task := by
  rw [started,List.getElem?_take] at found
  exact (Option.ite_none_right_eq_some.mp found).2

section Answers
variable {R : β → Query ι ρ ε α → Prop} {P : β → α → Prop} {specs : List β}

/-- What holds of the answers of the programs that were started; without a stop these are all. -/
structure Answered (stop : α → Bool) (P : β → α → Prop) (specs : List β) (results : List (Bool × α)) : Prop where
  each : List.Forall₂ (fun spec result => P spec result.2) (specs.take results.length) results
  all : results.length = specs.length ∨ ∃ result ∈ results, result.1 = false ∧ stop result.2 = true

theorem answers_of {tasks : List (Query ι ρ ε α)} {answers : List α} (each : List.Forall₂ R specs tasks)
    (ends : ∀ spec a, R spec (.answer a) → P spec a) (all : tasks.mapM Query.answer? = some answers) : List.Forall₂ P specs answers := by
  induction each generalizing answers with
  | nil =>
    cases all
    exact .nil
  | @cons spec task _ _ holds _ ih =>
    rw [List.mapM_cons] at all
    obtain ⟨a,first,rest⟩ := Option.bind_eq_some_iff.mp all
    obtain ⟨later,more,same⟩ := Option.bind_eq_some_iff.mp rest
    cases same
    refine .cons ?_ (ih more)
    cases task with
    | answer b =>
      cases first
      exact ends spec _ holds
    | fail e => contradiction
    | ask i next => contradiction

theorem mem_zip_getLast {flags : List Bool} {tasks : List (Query ι ρ ε α)} {answers : List α} (length : flags.length = tasks.length)
    (all : tasks.mapM Query.answer? = some answers) (alone : flags.getLast? = some false) {a : α}
    (last : (tasks.getLast?).bind Query.answer? = some a) : (false,a) ∈ flags.zip answers := by
  induction flags generalizing tasks answers with
  | nil => contradiction
  | cons flag flags ih =>
    cases tasks with
    | nil => contradiction
    | cons task tasks =>
      rw [List.mapM_cons] at all
      obtain ⟨a',first,rest⟩ := Option.bind_eq_some_iff.mp all
      obtain ⟨later,more,same⟩ := Option.bind_eq_some_iff.mp rest
      cases same
      cases flags with
      | nil =>
        obtain rfl := List.eq_nil_of_length_eq_zero (show tasks.length = 0 by simpa using length.symm)
        have own : task.answer? = some a := by simpa using last
        cases first.symm.trans own
        cases alone
        exact List.mem_cons_self
      | cons flag' flags =>
        cases tasks with
        | nil => simp at length
        | cons task' tasks =>
          rw [List.getLast?_cons_cons] at alone last
          exact List.mem_cons_of_mem _ (ih (by simpa using length) more alone last)

theorem answered_of_answers? {results : List (Bool × α)} (fits : g.Fits) (each : List.Forall₂ R specs g.tasks)
    (ends : ∀ spec a, R spec (.answer a) → P spec a) (done : g.answers? stop = some results) : Answered stop P specs results := by
  obtain ⟨ended,done⟩ := Option.ite_none_right_eq_some.mp done
  obtain ⟨answers,all,rfl⟩ := Option.map_eq_some_iff.mp done
  have length : g.shared.length = g.started.length := by
    rw [started,List.length_take]
    exact (Nat.min_eq_left fits).symm
  have begun : List.Forall₂ P (specs.take g.shared.length) answers := answers_of (List.forall₂_take _ each) ends all
  have count : answers.length = g.shared.length := by
    rw [← begun.length_eq,List.length_take,each.length_eq]
    exact Nat.min_eq_left fits
  have zipped : (g.shared.zip answers).length = g.shared.length := by
    rw [List.length_zip,count,Nat.min_self]
  constructor
  · rw [zipped]
    have second : (g.shared.zip answers).map Prod.snd = answers := List.map_snd_zip count.le
    rw [← second] at begun
    exact List.forall₂_map_right_iff.mp begun
  · rw [looped,Bool.or_eq_true,decide_eq_true_eq] at ended
    rcases ended with stops | none
    · right
      rw [Option.any_eq_true] at stops
      obtain ⟨a,own,stops⟩ := stops
      obtain ⟨task,found,answer⟩ := Option.bind_eq_some_iff.mp own
      obtain ⟨alone,last⟩ := Option.ite_none_right_eq_some.mp found
      exact ⟨(false,a),mem_zip_getLast length all alone (by rw [last]; exact answer),rfl,stops⟩
    · left
      rw [zipped,each.length_eq]
      exact Nat.le_antisymm fits none

/-- Where nothing stops the loop, all of the programs are run. -/
theorem Answered.forall₂ {results : List (Bool × α)} (answered : Answered stop P specs results) (never : ∀ a, stop a = false) :
    List.Forall₂ P specs (results.map Prod.snd) := by
  rcases answered.all with all | ⟨result,_,_,stops⟩
  · have each := answered.each
    rw [all,List.take_length] at each
    exact List.forall₂_map_right_iff.mpr each
  · rw [never] at stops
    contradiction

end Answers

section Moves

theorem moves_step {k : Nat} (move : some k ∈ g.moves stop) : ∃ task, g.started[k]? = some task ∧ task.answer? = none := by
  rw [moves,List.mem_append] at move
  rcases move with first | later
  · split at first
    next => exact absurd first List.not_mem_nil
    next => cases List.mem_singleton.mp first
  · obtain ⟨_,member,same⟩ := List.mem_map.mp later
    cases same
    obtain ⟨inside,waits⟩ := List.mem_filter.mp member
    have found := List.getElem?_eq_getElem (List.mem_range.mp inside)
    refine ⟨_,found,?_⟩
    rwa [found,Option.bind_some,Option.isNone_iff_eq_none] at waits

theorem mapM_answer {tasks : List (Query ι ρ ε α)} (all : ∀ task ∈ tasks, task.answer? ≠ none) :
    ∃ answers, tasks.mapM Query.answer? = some answers := by
  induction tasks with
  | nil => exact ⟨[],rfl⟩
  | cons task tasks ih =>
    obtain ⟨a,first⟩ := Option.ne_none_iff_exists'.mp (all task List.mem_cons_self)
    obtain ⟨answers,rest⟩ := ih fun other member => all other (List.mem_cons_of_mem _ member)
    exact ⟨a :: answers,by rw [List.mapM_cons,first,rest]; rfl⟩

/-- As long as there are no answers, someone can go on. -/
theorem moves_ne_nil (waits : g.answers? stop = none) : g.moves stop ≠ [] := by
  intro nothing
  obtain ⟨loop,programs⟩ := List.append_eq_nil_iff.mp nothing
  have ended (task : Query ι ρ ε α) (member : task ∈ g.started) : task.answer? ≠ none := by
    intro none
    obtain ⟨k,inside,rfl⟩ := List.mem_iff_getElem.mp member
    have found : g.started[k]? = some g.started[k] := List.getElem?_eq_getElem inside
    have open' : k ∈ (List.range g.started.length).filter fun k => (g.started[k]?.bind Query.answer?).isNone := by
      rw [List.mem_filter,List.mem_range,found,Option.bind_some,none]
      exact ⟨inside,rfl⟩
    rw [List.map_eq_nil_iff.mp programs] at open'
    exact List.not_mem_nil open'
  have looped : g.looped stop = true := by
    by_contra goes
    refine absurd loop ?_
    rw [if_neg]
    · exact List.cons_ne_nil _ _
    · rw [Bool.or_eq_true]
      rintro (left | busy)
      · exact goes left
      · rw [Crew.busy,Option.any_eq_true] at busy
        obtain ⟨task,found,open'⟩ := busy
        exact ended task (List.mem_of_getLast? (Option.ite_none_right_eq_some.mp found).2) (Option.isNone_iff_eq_none.mp open')
  obtain ⟨answers,all⟩ := mapM_answer ended
  rw [answers?,if_pos looped,all] at waits
  contradiction

theorem exists_move (waits : g.answers? stop = none) (t : Turn) :
    ∃ move ∈ g.moves stop, (g.moves stop)[t.next % (g.moves stop).length]? = some move := by
  have inside := Nat.mod_lt t.next (List.length_pos_iff.mpr (moves_ne_nil waits))
  exact ⟨_,List.getElem_mem inside,List.getElem?_eq_getElem inside⟩

end Moves

section Steps
variable {γ δ : Type} {R : γ → δ → Prop} {l : List γ} {m : List δ}

theorem forall₂_replace (each : List.Forall₂ R l m) {k : Nat} {b : δ} (found : m[k]? = some b) :
    ∃ a, l[k]? = some a ∧ R a b ∧ ∀ a' b', R a' b' → List.Forall₂ R (l.set k a') (m.set k b') := by
  induction each generalizing k with
  | nil => contradiction
  | @cons a _ _ _ first rest ih =>
    cases k with
    | zero =>
      cases found
      exact ⟨a,rfl,first,fun _ _ new => .cons new rest⟩
    | succ k =>
      obtain ⟨a',found,holds,replace⟩ := ih found
      exact ⟨a',found,holds,fun _ _ new => .cons first (replace _ _ new)⟩

theorem set_same {l : List γ} {k : Nat} {a : γ} (found : l[k]? = some a) : l.set k a = l := by
  obtain ⟨inside,rfl⟩ := List.getElem?_eq_some_iff.mp found
  exact List.set_getElem_self inside

theorem sum_set {l : List Nat} {k n : Nat} (found : l[k]? = some (n + 1)) : (l.set k n).sum + 1 = l.sum := by
  induction l generalizing k with
  | nil => contradiction
  | cons a l ih =>
    cases k with
    | zero =>
      cases found
      rw [List.set_cons_zero,List.sum_cons,List.sum_cons,Nat.add_right_comm]
    | succ k =>
      rw [List.set_cons_succ,List.sum_cons,List.sum_cons,Nat.add_assoc,ih found]

end Steps

/-- Whoever runs a program and whenever, it ends as it can end. -/
theorem run_ends {may : ι → ρ → Prop} {specs : List (Query ι ρ ε α)} (fits : g.Fits)
    (each : List.Forall₂ (fun spec task => ∀ result, task.Ends may result → spec.Ends may result) specs g.tasks)
    {result : Except ε (List (Bool × α))} (ends : (run stop stuck turn chosen n g).Ends may result) :
    (∀ results, result = .ok results → Answered stop (fun spec a => spec.Ends may (.ok a)) specs results) ∧
      ∀ e, result = .error e → e = stuck ∨ ∃ spec ∈ specs, spec.Ends may (.error e) := by
  have other {result : Except ε (List (Bool × α))} (ends : (Query.fail stuck : Query ι ρ ε _).Ends may result) :
      (∀ results, result = .ok results → Answered stop (fun spec a => spec.Ends may (.ok a)) specs results) ∧
        ∀ e, result = .error e → e = stuck ∨ ∃ spec ∈ specs, spec.Ends may (.error e) := by
    cases ends
    refine ⟨by simp,?_⟩
    rintro _ ⟨⟩
    exact .inl rfl
  induction n generalizing g with
  | zero => exact other ends
  | succ n ih =>
    rw [run] at ends
    split at ends
    next results done =>
      cases ends
      refine ⟨?_,by simp⟩
      rintro _ ⟨⟩
      exact answered_of_answers? fits each (fun _ _ holds => holds _ rfl) done
    next =>
      obtain ⟨reply,_,ends⟩ := ends
      dsimp only at ends
      split at ends
      next => exact other ends
      next =>
        split at ends
        next => exact other ends
        next move => exact ih (fits_start (mem_moves _ move) _) each ends
        next k _ =>
          split at ends
          next i next' found =>
            obtain ⟨reply,allowed,ends⟩ := ends
            obtain ⟨spec,own,holds,replace⟩ := forall₂_replace each (started_get found)
            have each' := replace spec (next' reply) fun result ends => holds result ⟨reply,allowed,ends⟩
            rw [set_same own] at each'
            exact ih (fits.set k (next' reply)) each' ends
          next e found =>
            obtain ⟨spec,own,holds,_⟩ := forall₂_replace each (started_get found)
            cases ends
            refine ⟨by simp,?_⟩
            rintro _ ⟨⟩
            exact .inr ⟨spec,List.mem_of_getElem? own,holds _ rfl⟩
          next => exact other ends

theorem run_avoids {may : ι → ρ → Prop} {tasks : List (Query ι ρ ε α)} {bad : ε → Prop} (other : ¬ bad stuck)
    (avoids : ∀ task ∈ tasks, task.Avoids may bad) : (run stop stuck turn chosen n (of tasks)).Avoids may bad := by
  intro e wrong ends
  rcases (run_ends (fits_of tasks) (List.forall₂_same.mpr fun _ _ _ ends => ends) ends).2 e rfl with rfl | ⟨task,member,ends⟩
  · exact other wrong
  · exact avoids task member e wrong ends

section Budgets
variable {σ ω : Type} {act : σ → ι → ω → σ × ρ} {may : ι → ω → Prop} {inv : σ → Prop} {failed : ε → Prop} {P : β → α → Prop}

/-- How many moves are left at most, if each program asks that many questions at most. -/
def left (g : Crew ι ρ ε α) (budgets : List Nat) : Nat := budgets.sum + (g.tasks.length - g.shared.length)

theorem left_start {budgets : List Nat} (move : none ∈ g.moves stop) (shared : Bool) :
    left { g with shared := g.shared ++ [shared] } budgets + 1 = g.left budgets := by
  have free := (moves_none move).1
  rw [looped,Bool.or_eq_false_iff,decide_eq_false_iff_not] at free
  simp only [left,List.length_append,List.length_singleton]
  omega

theorem left_step (g : Crew ι ρ ε α) {budgets : List Nat} {k n : Nat} (found : budgets[k]? = some (n + 1)) (task : Query ι ρ ε α) :
    left { g with tasks := g.tasks.set k task } (budgets.set k n) + 1 = g.left budgets := by
  have sum := sum_set found
  simp only [left,List.length_set]
  omega

/-- All programs end, and with them the run, which asks whose turn it is at most as often as they ask. -/
theorem run_within {specs : List (β × Nat)} (fits : g.Fits)
    (each : List.Forall₂ (fun spec task => task.Within act may inv (P spec.1) failed spec.2) specs g.tasks)
    (turns : ∀ s ending, inv s → may turn ending → inv (act s turn ending).1 ∧ (chosen (act s turn ending).2).isSome)
    (enough : g.left (specs.map Prod.snd) < n) : (run stop stuck turn chosen n g).Within act may inv
      (Answered stop P (specs.map Prod.fst)) failed (2 * g.left (specs.map Prod.snd) + 1) := by
  induction n generalizing g specs with
  | zero => exact absurd enough (Nat.not_lt_zero _)
  | succ n ih =>
    rw [run]
    split
    next done =>
      refine answered_of_answers? (R := fun spec task => ∃ m, task.Within act may inv (P spec) failed m) fits ?_ ?_ done
      · exact List.forall₂_map_left_iff.mpr (each.imp fun spec _ within => ⟨spec.2,within⟩)
      · exact fun _ _ ⟨_,holds⟩ => holds
    next waits =>
      intro s ending holds allowed
      obtain ⟨kept,picked⟩ := turns s ending holds allowed
      refine ⟨kept,?_⟩
      obtain ⟨t,chosen⟩ := Option.isSome_iff_exists.mp picked
      obtain ⟨move,member,next⟩ := exists_move waits t
      simp only [chosen,next]
      cases move with
      | none =>
        have fewer : left { g with shared := g.shared ++ [t.shared] } (specs.map Prod.snd) + 1 = g.left (specs.map Prod.snd) :=
          left_start member t.shared
        exact (ih (fits_start member _) each (by omega)).mono (by omega) fun _ holds => holds
      | some k =>
        obtain ⟨task,found,goes⟩ := moves_step member
        obtain ⟨spec,own,within,replace⟩ := forall₂_replace each (started_get found)
        simp only [found]
        cases task with
        | answer a => cases goes
        | fail e => exact within
        | ask i next' =>
          obtain ⟨spec,m⟩ := spec
          cases m with
          | zero => exact within.elim
          | succ m =>
            have budget : (specs.map Prod.snd)[k]? = some (m + 1) := by rw [List.getElem?_map,own]; rfl
            have name : (specs.map Prod.fst)[k]? = some spec := by rw [List.getElem?_map,own]; rfl
            obtain ⟨left,same⟩ : ∃ left, g.left (specs.map Prod.snd) = left + 1 := ⟨_,(left_step g budget (.fail stuck)).symm⟩
            rw [same,show 2 * (left + 1) = 2 * left + 1 + 1 from rfl]
            intro s' ending' holds' allowed'
            obtain ⟨kept',rest⟩ := within s' ending' holds' allowed'
            have fewer := left_step g budget (next' (act s' i ending').2)
            have more := ih (fits.set k _) (replace (spec,m) _ rest) (by rw [List.map_set]; dsimp only; omega)
            rw [List.map_set,List.map_set,set_same name] at more
            exact ⟨kept',more.mono (by dsimp only; omega) fun _ holds => holds⟩

end Budgets

end Rules

end Crew

end Vbe.Library
