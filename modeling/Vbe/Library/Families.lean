import Mathlib.Algebra.BigOperators.Group.List.Basic
import Mathlib.Algebra.GroupWithZero.Nat
import Vbe.Library.Runs

/-! Processes that start others and see which of them have ended. Calls run side by side, each with all that it has started,
and each has a log of what happened in it. -/
namespace Vbe.Library

/-- Processes with the ones they started, the newest first. -/
inductive Family (α : Type)
  | nil
  | cons (label : α) (started rest : Family α)

namespace Family
variable {σ α β ε : Type}

def tops : Family α → List α
  | nil => []
  | cons a _ rest => a :: rest.tops

def labels : Family α → List α
  | nil => []
  | cons a started rest => a :: (started.labels ++ rest.labels)

/-- Where the process is that acts. -/
inductive Position
  | here
  | inside (p : Position)
  | beside (p : Position)

/-- What an action leaves, which processes it starts, and what it logs. -/
structure Action (σ α ε : Type) where
  shared : σ
  label : α
  new : List α
  event : ε

/-- A process acts on what all share, by its label and those of the ones it started; none where it waits or has ended. -/
abbrev Act (σ α β ε : Type) := σ → α → List α → β → Option (Action σ α ε)

def start (new : List α) (f : Family α) : Family α := new.foldr (fun a f => cons a nil f) f

variable (act : Act σ α β ε)

def step (s : σ) (l : β) : Family α → Position → Option (σ × Family α × ε)
  | nil, _ => none
  | cons a started rest, .here =>
    (act s a started.tops l).map fun taken => (taken.shared,cons taken.label (start taken.new started) rest,taken.event)
  | cons a started rest, .inside p =>
    (step s l started p).map fun (s',started',e) => (s',cons a started' rest,e)
  | cons a started rest, .beside p =>
    (step s l rest p).map fun (s',rest',e) => (s',cons a started rest',e)

section Steps
variable {act} {s s' : σ} {l : β} {f f' : Family α} {p : Position} {e : ε}

theorem labels_start (new : List α) (f : Family α) : (start new f).labels = new ++ f.labels := by
  induction new with
  | nil => rfl
  | cons a new ih => exact congrArg (a :: ·) ih

theorem tops_subset (f : Family α) : f.tops ⊆ f.labels := by
  induction f with
  | nil => exact List.nil_subset _
  | cons a started rest _ ih => exact List.cons_subset_cons a (List.Subset.trans ih (List.subset_append_right _ _))

/-- Each step is an action of one process, and leaves the others as they are. -/
theorem step_labels (taken : step act s l f p = some (s',f',e)) :
    ∃ a tops done others, act s a tops l = some done ∧ done.shared = s' ∧ done.event = e ∧
      f.labels.Perm (a :: others) ∧ f'.labels.Perm (done.label :: (done.new ++ others)) := by
  induction f generalizing p s' f' e with
  | nil => simp [step] at taken
  | cons a started rest below beside =>
    cases p with
    | here =>
      obtain ⟨done,acted,equal⟩ := Option.map_eq_some_iff.mp taken
      cases equal
      refine ⟨a,started.tops,done,started.labels ++ rest.labels,acted,rfl,rfl,List.Perm.refl _,?_⟩
      rw [labels,labels_start,List.append_assoc]
    | inside p =>
      obtain ⟨⟨s'',started',e'⟩,inner,equal⟩ := Option.map_eq_some_iff.mp taken
      cases equal
      obtain ⟨b,tops,done,others,acted,shared,event,before,after⟩ := below inner
      refine ⟨b,tops,done,a :: (others ++ rest.labels),acted,shared,event,?_,?_⟩
      · exact ((before.append_right _).cons a).trans (List.Perm.swap b a _)
      · refine ((after.append_right _).cons a).trans ((List.Perm.swap _ a _).trans (List.Perm.cons _ ?_))
        rw [List.append_eq,List.append_assoc]
        exact List.perm_middle.symm
    | beside p =>
      obtain ⟨⟨s'',rest',e'⟩,inner,equal⟩ := Option.map_eq_some_iff.mp taken
      cases equal
      obtain ⟨b,tops,done,others,acted,shared,event,before,after⟩ := beside inner
      refine ⟨b,tops,done,a :: (started.labels ++ others),acted,shared,event,?_,?_⟩
      · exact (((before.append_left _).trans List.perm_middle).cons a).trans (List.Perm.swap b a _)
      · refine (((after.append_left _).trans List.perm_middle).cons a).trans ((List.Perm.swap _ a _).trans (List.Perm.cons _ ?_))
        refine List.Perm.trans (List.Perm.cons a ?_) List.perm_middle.symm
        rw [← List.append_assoc,← List.append_assoc]
        exact List.perm_append_comm.append_right others

/-- A process with what it started: it acts, or one of those does. -/
theorem step_cons_nil {a : α} {started : Family α} (taken : step act s l (cons a started nil) p = some (s',f',e)) :
    (∃ result, act s a started.tops l = some result ∧ f' = cons result.label (start result.new started) nil ∧
        s' = result.shared ∧ e = result.event) ∨
      ∃ q started', step act s l started q = some (s',started',e) ∧ f' = cons a started' nil := by
  cases p with
  | here =>
    obtain ⟨result,acted,equal⟩ := Option.map_eq_some_iff.mp taken
    cases equal
    exact .inl ⟨result,acted,rfl,rfl,rfl⟩
  | inside q =>
    obtain ⟨⟨s'',started',e'⟩,inner,equal⟩ := Option.map_eq_some_iff.mp taken
    cases equal
    exact .inr ⟨q,started',inner,rfl⟩
  | beside q => simp [step] at taken

end Steps

section Everywhere
variable {act} {holds : α → List α → Prop} {s s' : σ} {l : β} {f f' : Family α} {p : Position} {e : ε}

/-- Every process is as is said of it and the ones it started. -/
def Everywhere (holds : α → List α → Prop) : Family α → Prop
  | nil => True
  | cons a started rest => holds a started.tops ∧ started.Everywhere holds ∧ rest.Everywhere holds

theorem everywhere_of (all : ∀ a tops, holds a tops) : f.Everywhere holds := by
  induction f with
  | nil => trivial
  | cons a started rest below beside => exact ⟨all a started.tops,below,beside⟩

theorem tops_start (new : List α) (f : Family α) : (start new f).tops = new ++ f.tops := by
  induction new with
  | nil => rfl
  | cons a new ih => exact congrArg (a :: ·) ih

theorem everywhere_start {new : List α} (fresh : ∀ b ∈ new, holds b []) (all : f.Everywhere holds) : (start new f).Everywhere holds := by
  induction new with
  | nil => exact all
  | cons a new ih => exact ⟨fresh a List.mem_cons_self,trivial,ih fun b member => fresh b (List.mem_cons_of_mem a member)⟩

theorem exists_of_tops (all : f.Everywhere holds) : ∀ b ∈ f.tops, ∃ inner, holds b inner := by
  induction f with
  | nil => exact fun b member => absurd member List.not_mem_nil
  | cons a started rest _ beside =>
    intro b member
    rcases List.mem_cons.mp member with rfl | member
    · exact ⟨started.tops,all.1⟩
    · exact beside all.2.2 b member

/-- A step leaves the processes at the top, or one of them has acted. -/
theorem tops_step (all : f.Everywhere holds) (taken : step act s l f p = some (s',f',e)) :
    f'.tops = f.tops ∨ ∃ before a after tops r, f.tops = before ++ a :: after ∧ f'.tops = before ++ r.label :: after ∧
      holds a tops ∧ act s a tops l = some r := by
  induction f generalizing p s' f' e with
  | nil => simp [step] at taken
  | cons a started rest _ beside =>
    cases p with
    | here =>
      obtain ⟨r,acted,equal⟩ := Option.map_eq_some_iff.mp taken
      cases equal
      exact .inr ⟨[],a,rest.tops,started.tops,r,rfl,rfl,all.1,acted⟩
    | inside p =>
      obtain ⟨⟨s'',started',e'⟩,_,equal⟩ := Option.map_eq_some_iff.mp taken
      cases equal
      exact .inl rfl
    | beside p =>
      obtain ⟨⟨s'',rest',e'⟩,inner,equal⟩ := Option.map_eq_some_iff.mp taken
      cases equal
      rcases beside all.2.2 inner with same | ⟨before,b,after,tops,r,here,there,held,acted⟩
      · exact .inl (congrArg (a :: ·) same)
      · exact .inr ⟨a :: before,b,after,tops,r,congrArg (a :: ·) here,congrArg (a :: ·) there,held,acted⟩

/-- What every action keeps of its process, and what keeps being so when one of the started processes acts. -/
structure Keeping (act : Act σ α β ε) (good : σ → Prop) (holds : α → List α → Prop) : Prop where
  kept : ∀ s a tops l r, good s → (∀ b ∈ tops, ∃ inner, holds b inner) → holds a tops → act s a tops l = some r →
    good r.shared ∧ holds r.label (r.new ++ tops) ∧ ∀ b ∈ r.new, holds b []
  stable : ∀ s a before b after tops l r, holds b tops → act s b tops l = some r → holds a (before ++ b :: after) →
    holds a (before ++ r.label :: after)

theorem everywhere_step {good : σ → Prop} (keeping : Keeping act good holds) (well : good s) (all : f.Everywhere holds)
    (taken : step act s l f p = some (s',f',e)) : good s' ∧ f'.Everywhere holds := by
  induction f generalizing p s' f' e with
  | nil => simp [step] at taken
  | cons a started rest below beside =>
    cases p with
    | here =>
      obtain ⟨r,acted,equal⟩ := Option.map_eq_some_iff.mp taken
      cases equal
      obtain ⟨well',label,new⟩ := keeping.kept s a started.tops l r well (exists_of_tops all.2.1) all.1 acted
      refine ⟨well',?_,everywhere_start new all.2.1,all.2.2⟩
      rw [tops_start]
      exact label
    | inside p =>
      obtain ⟨⟨s'',started',e'⟩,inner,equal⟩ := Option.map_eq_some_iff.mp taken
      cases equal
      obtain ⟨well',inside⟩ := below all.2.1 inner
      refine ⟨well',?_,inside,all.2.2⟩
      rcases tops_step all.2.1 inner with same | ⟨before,b,after,tops,r,here,there,held,acted⟩
      · rw [same]
        exact all.1
      · rw [there]
        have first := all.1
        rw [here] at first
        exact keeping.stable s a before b after tops l r held acted first
    | beside p =>
      obtain ⟨⟨s'',rest',e'⟩,inner,equal⟩ := Option.map_eq_some_iff.mp taken
      cases equal
      obtain ⟨well',outside⟩ := beside all.2.2 inner
      exact ⟨well',all.1,all.2.1,outside⟩

end Everywhere

section Ends
variable (done quiet : α → Bool)

/-- What has ended acts no more. Some labels are quiet: all that was started has ended, which is seen when such a label is taken. -/
structure Ending : Prop where
  rests : ∀ s a tops l, done a = true → act s a tops l = none
  quiets : ∀ a, done a = true → quiet a = true
  waits : ∀ s a tops l taken, act s a tops l = some taken → quiet taken.label = true →
    taken.new = [] ∧ (quiet a = true ∨ ∀ b ∈ tops, done b = true)

def Settled : Family α → Prop
  | nil => True
  | cons a started rest => (quiet a = true → ∀ b ∈ started.labels, done b = true) ∧ started.Settled ∧ rest.Settled

variable {act done quiet} {s s' : σ} {l : β} {f f' : Family α} {p : Position} {e : ε}

theorem settled_start {new : List α} (settled : f.Settled done quiet) : (start new f).Settled done quiet := by
  induction new with
  | nil => exact settled
  | cons a new ih => exact ⟨fun _ _ member => absurd member List.not_mem_nil,trivial,ih⟩

theorem labels_done (quiets : ∀ a, done a = true → quiet a = true) (settled : f.Settled done quiet) (tops : ∀ b ∈ f.tops, done b = true) : ∀ b ∈ f.labels, done b = true := by
  induction f with
  | nil => exact fun b member => absurd member List.not_mem_nil
  | cons a started rest _ beside =>
    intro b member
    rcases List.mem_cons.mp member with rfl | member
    · exact tops _ List.mem_cons_self
    rcases List.mem_append.mp member with inner | outer
    · exact settled.1 (quiets a (tops a List.mem_cons_self)) b inner
    · exact beside settled.2.2 (fun b member => tops b (List.mem_cons_of_mem a member)) b outer

theorem rests_of_done (ending : Ending act done quiet) (all : ∀ b ∈ f.labels, done b = true) : step act s l f p = none := by
  by_contra moved
  obtain ⟨⟨s',f',e⟩,taken⟩ := Option.ne_none_iff_exists'.mp moved
  obtain ⟨a,tops,_,others,acted,_,_,before,_⟩ := step_labels taken
  rw [ending.rests s a tops l (all a (before.mem_iff.mpr List.mem_cons_self))] at acted
  contradiction

theorem settled_step (ending : Ending act done quiet) (settled : f.Settled done quiet) (taken : step act s l f p = some (s',f',e)) :
    f'.Settled done quiet := by
  induction f generalizing p s' f' e with
  | nil => simp [step] at taken
  | cons a started rest below beside =>
    cases p with
    | here =>
      obtain ⟨result,acted,equal⟩ := Option.map_eq_some_iff.mp taken
      cases equal
      refine ⟨fun still => ?_,settled_start settled.2.1,settled.2.2⟩
      obtain ⟨none,before | tops⟩ := ending.waits _ _ _ _ _ acted still
      · rw [none]
        exact settled.1 before
      · rw [none]
        exact labels_done ending.quiets settled.2.1 tops
    | inside p =>
      obtain ⟨⟨s'',started',e'⟩,inner,equal⟩ := Option.map_eq_some_iff.mp taken
      cases equal
      refine ⟨fun still => ?_,below settled.2.1 inner,settled.2.2⟩
      rw [rests_of_done ending (settled.1 still)] at inner
      contradiction
    | beside p =>
      obtain ⟨⟨s'',rest',e'⟩,inner,equal⟩ := Option.map_eq_some_iff.mp taken
      cases equal
      exact ⟨settled.1,settled.2.1,beside settled.2.2 inner⟩

/-- Where nothing waits but for what it started, some process acts as long as one has not ended. -/
theorem exists_step_of {holds : α → List α → Prop} (all : f.Everywhere holds)
    (moves : ∀ a ∈ f.labels, ∀ tops, holds a tops → done a = false → (∀ b ∈ tops, done b = true) → ∃ l taken, act s a tops l = some taken)
    (open_ : ∃ a ∈ f.labels, done a = false) : ∃ p l, step act s l f p ≠ none := by
  induction f with
  | nil =>
    obtain ⟨a,member,_⟩ := open_
    contradiction
  | cons a started rest below beside =>
    by_cases inner : ∃ b ∈ started.labels, done b = false
    · have inside (b : α) (member : b ∈ started.labels) : b ∈ (cons a started rest).labels :=
        List.mem_cons_of_mem a (List.mem_append_left _ member)
      obtain ⟨p,l,moved⟩ := below all.2.1 (fun b member => moves b (inside b member)) inner
      exact ⟨.inside p,l,by simpa [step] using moved⟩
    by_cases outer : ∃ b ∈ rest.labels, done b = false
    · have outside (b : α) (member : b ∈ rest.labels) : b ∈ (cons a started rest).labels :=
        List.mem_cons_of_mem a (List.mem_append_right _ member)
      obtain ⟨p,l,moved⟩ := beside all.2.2 (fun b member => moves b (outside b member)) outer
      exact ⟨.beside p,l,by simpa [step] using moved⟩
    · obtain ⟨b,member,unended⟩ := open_
      rcases List.mem_cons.mp member with rfl | member
      · have tops (c : α) (top : c ∈ started.tops) : done c = true := by
          by_contra unended
          exact inner ⟨c,tops_subset started top,by simpa using unended⟩
        obtain ⟨l,taken,acted⟩ := moves b List.mem_cons_self started.tops all.1 unended tops
        exact ⟨.here,l,by simp [step,acted]⟩
      · rcases List.mem_append.mp member with inside | outside
        · exact absurd ⟨b,inside,unended⟩ inner
        · exact absurd ⟨b,outside,unended⟩ outer

theorem exists_step (moves : ∀ s a tops, done a = false → (∀ b ∈ tops, done b = true) → ∃ l taken, act s a tops l = some taken)
    (open_ : ∃ a ∈ f.labels, done a = false) (s : σ) : ∃ p l, step act s l f p ≠ none :=
  exists_step_of (everywhere_of fun _ _ => trivial) (fun a _ tops _ => moves s a tops) open_

/-- A process that nothing keeps from acting. -/
theorem exists_step_of_mem {a : α} (member : a ∈ f.labels) (moves : ∀ tops, ∃ l taken, act s a tops l = some taken) :
    ∃ p l, step act s l f p ≠ none := by
  induction f with
  | nil => contradiction
  | cons b started rest below beside =>
    rcases List.mem_cons.mp member with rfl | member
    · obtain ⟨l,taken,acted⟩ := moves started.tops
      exact ⟨.here,l,by simp [step,acted]⟩
    · rcases List.mem_append.mp member with inner | outer
      · obtain ⟨p,l,moved⟩ := below inner
        exact ⟨.inside p,l,by simpa [step] using moved⟩
      · obtain ⟨p,l,moved⟩ := beside outer
        exact ⟨.beside p,l,by simpa [step] using moved⟩

end Ends

end Family

section Calls
open Family
variable {σ α β ε : Type}

structure Call (α ε : Type) where
  tasks : Family α
  log : List ε

structure Calls (σ α ε : Type) where
  shared : σ
  calls : List (Call α ε)

namespace Calls

def of (s : σ) (labels : List α) : Calls σ α ε := ⟨s,labels.map fun a => ⟨.cons a .nil .nil,[]⟩⟩

variable (act : Act σ α β ε)

/-- A process of one of the calls acts. -/
def step (c : Calls σ α ε) (l : Nat × Position × β) : Option (Calls σ α ε) :=
  c.calls[l.1]?.bind fun call =>
    (Family.step act c.shared l.2.2 call.tasks l.2.1).map fun (s,tasks,e) =>
      ⟨s,c.calls.set l.1 ⟨tasks,call.log ++ [e]⟩⟩

def labels (c : Calls σ α ε) : List α := c.calls.flatMap (·.tasks.labels)

def events (c : Calls σ α ε) : List ε := c.calls.flatMap (·.log)

variable {act} {c d : Calls σ α ε} {l : Nat × Position × β}

/-- What a step of some calls is: an action of one process of one call, which logs it. -/
structure Stepped (act : Act σ α β ε) (c : Calls σ α ε) (l : Nat × Position × β) (d : Calls σ α ε) (a : α) (tops : List α)
    (taken : Action σ α ε) (others : List α) : Prop where
  acted : act c.shared a tops l.2.2 = some taken
  shared : d.shared = taken.shared
  labels : c.labels.Perm (a :: others)
  labels' : d.labels.Perm (taken.label :: (taken.new ++ others))
  events : d.events.Perm (taken.event :: c.events)
  calls : ∃ call tasks, c.calls[l.1]? = some call ∧ Family.step act c.shared l.2.2 call.tasks l.2.1 = some (taken.shared,tasks,taken.event) ∧
    d.calls = c.calls.set l.1 ⟨tasks,call.log ++ [taken.event]⟩

/-- What is inside some surroundings can be put in front. -/
theorem perm_around {inner others : List α} {first : α} (new : List α) (perm : inner.Perm (first :: (new ++ others)))
    (left right : List α) : (left ++ (inner ++ right)).Perm (first :: (new ++ (left ++ others ++ right))) := by
  refine ((perm.append_right right).append_left left).trans (List.perm_middle.trans (List.Perm.cons first ?_))
  rw [List.append_eq,List.append_assoc,List.append_assoc]
  exact List.perm_append_comm_assoc left new (others ++ right)

theorem stepped (taken : step act c l = some d) : ∃ a tops result others, Stepped act c l d a tops result others := by
  obtain ⟨call,found,moved⟩ := Option.bind_eq_some_iff.mp taken
  obtain ⟨⟨s',tasks',e⟩,inner,equal⟩ := Option.map_eq_some_iff.mp moved
  cases equal
  obtain ⟨a,tops,result,others,acted,rfl,rfl,before,after⟩ := step_labels inner
  obtain ⟨left,right,split,split'⟩ : ∃ left right, c.calls = left ++ call :: right ∧
      ∀ call', c.calls.set l.1 call' = left ++ call' :: right := by
    obtain ⟨bound,is⟩ := List.getElem?_eq_some_iff.mp found
    refine ⟨c.calls.take l.1,c.calls.drop (l.1 + 1),?_,fun call' => List.set_eq_take_append_cons_drop.trans (if_pos bound)⟩
    rw [← is,List.getElem_cons_drop,List.take_append_drop]
  refine ⟨a,tops,result,left.flatMap (·.tasks.labels) ++ others ++ right.flatMap (·.tasks.labels),acted,rfl,?_,?_,?_,
    call,tasks',found,inner,rfl⟩
  · rw [labels,split,List.flatMap_append,List.flatMap_cons]
    exact perm_around [] before _ _
  · simp only [labels,split',List.flatMap_append,List.flatMap_cons]
    exact perm_around _ after _ _
  · simp only [events,split']
    simp only [split,List.flatMap_append,List.flatMap_cons]
    have logged : (call.log ++ [result.event]).Perm (result.event :: ([] ++ call.log)) := List.perm_append_singleton _ _
    rw [← List.append_assoc _ call.log]
    exact perm_around [] logged _ _

theorem labels_of (s : σ) (labels : List α) : (of s labels : Calls σ α ε).labels = labels := by
  rw [Calls.labels,of,List.flatMap_map]
  exact List.flatMap_singleton' labels

section Everywhere
variable {good : σ → Prop} {holds : α → List α → Prop}

theorem everywhere_of_labels {s : σ} {labels : List α} (fresh : ∀ a ∈ labels, holds a []) :
    ∀ call ∈ (of s labels : Calls σ α ε).calls, call.tasks.Everywhere holds := by
  intro call one
  obtain ⟨a,member,rfl⟩ := List.mem_map.mp one
  exact ⟨fresh a member,trivial,trivial⟩

theorem everywhere_step (keeping : Keeping act good holds) (well : good c.shared) (all : ∀ call ∈ c.calls, call.tasks.Everywhere holds)
    (taken : step act c l = some d) : good d.shared ∧ ∀ call ∈ d.calls, call.tasks.Everywhere holds := by
  obtain ⟨_,_,_,_,one⟩ := stepped taken
  obtain ⟨call,tasks,found,moved,set⟩ := one.calls
  obtain ⟨well',inner⟩ := Family.everywhere_step keeping well (all call (List.mem_of_getElem? found)) moved
  rw [one.shared]
  refine ⟨well',fun other member => ?_⟩
  rw [set] at member
  rcases List.mem_or_eq_of_mem_set member with before | rfl
  · exact all other before
  · exact inner

/-- What actions leave of their labels stays at the top of all calls. -/
theorem tops_map_step {γ : Type} {f : α → γ} (same : ∀ s a tops l r, act s a tops l = some r → f r.label = f a)
    (taken : step act c l = some d) : (d.calls.map fun call => call.tasks.tops.map f) = c.calls.map fun call => call.tasks.tops.map f := by
  obtain ⟨_,_,_,_,one⟩ := stepped taken
  obtain ⟨call,tasks,found,moved,set⟩ := one.calls
  have tops : tasks.tops.map f = call.tasks.tops.map f := by
    rcases tops_step (everywhere_of fun _ _ => trivial : call.tasks.Everywhere fun _ _ => True) moved with
      same_ | ⟨before,a,after,tops,r,here,there,_,acted⟩
    · rw [same_]
    · rw [here,there,List.map_append,List.map_append,List.map_cons,List.map_cons,same _ _ _ _ _ acted]
  obtain ⟨bound,is⟩ := List.getElem?_eq_some_iff.mp found
  rw [set,List.map_set]
  refine List.ext_getElem? fun k => ?_
  by_cases here : l.1 = k
  · subst here
    rw [List.getElem?_set_self (by simpa using bound),List.getElem?_map,found]
    exact congrArg some tops
  · rw [List.getElem?_set_ne here]

end Everywhere

section Ends
variable {done quiet : α → Bool}

theorem settled_step (ending : Ending act done quiet) (settled : ∀ call ∈ c.calls, call.tasks.Settled done quiet)
    (taken : step act c l = some d) : ∀ call ∈ d.calls, call.tasks.Settled done quiet := by
  obtain ⟨_,_,_,_,one⟩ := stepped taken
  obtain ⟨call,tasks,found,moved,set⟩ := one.calls
  intro other member
  rw [set] at member
  rcases List.mem_or_eq_of_mem_set member with before | rfl
  · exact settled other before
  · exact Family.settled_step ending (settled call (List.mem_of_getElem? found)) moved

theorem exists_step_of_call {call : Call α ε} (one : call ∈ c.calls) (moved : ∃ p l, Family.step act c.shared l call.tasks p ≠ none) :
    ∃ l, step act c l ≠ none := by
  obtain ⟨p,l,moved⟩ := moved
  obtain ⟨k,bound,is⟩ := List.getElem_of_mem one
  refine ⟨(k,p,l),?_⟩
  rw [step,List.getElem?_eq_getElem bound,is,Option.bind_some]
  simpa using moved

theorem exists_step (moves : ∀ s a tops, done a = false → (∀ b ∈ tops, done b = true) → ∃ l taken, act s a tops l = some taken)
    (unended : ∃ a ∈ c.labels, done a = false) : ∃ l, step act c l ≠ none := by
  obtain ⟨a,member,alive⟩ := unended
  obtain ⟨call,one,inner⟩ := List.mem_flatMap.mp member
  exact exists_step_of_call one (Family.exists_step moves ⟨a,inner,alive⟩ c.shared)

theorem exists_step_of (done : α → Bool) {holds : α → List α → Prop} (all : ∀ call ∈ c.calls, call.tasks.Everywhere holds)
    (moves : ∀ a ∈ c.labels, ∀ tops, holds a tops → done a = false → (∀ b ∈ tops, done b = true) →
      ∃ l taken, act c.shared a tops l = some taken) (unended : ∃ a ∈ c.labels, done a = false) : ∃ l, step act c l ≠ none := by
  obtain ⟨a,member,alive⟩ := unended
  obtain ⟨call,one,inner⟩ := List.mem_flatMap.mp member
  exact exists_step_of_call one (Family.exists_step_of (all call one) (fun b here => moves b (List.mem_flatMap.mpr ⟨call,one,here⟩)) ⟨a,inner,alive⟩)

theorem exists_step_of_mem {a : α} (member : a ∈ c.labels) (moves : ∀ tops, ∃ l taken, act c.shared a tops l = some taken) :
    ∃ l, step act c l ≠ none := by
  obtain ⟨call,one,inner⟩ := List.mem_flatMap.mp member
  exact exists_step_of_call one (Family.exists_step_of_mem inner moves)

end Ends

def total (weight : α → Nat) (c : Calls σ α ε) : Nat := (c.labels.map weight).sum

/-- Where every action lowers the weight of what is to be done, runs are no longer than that. -/
theorem run_length (weight : α → Nat)
    (lowers : ∀ s a tops l taken, act s a tops l = some taken → weight taken.label + (taken.new.map weight).sum < weight a)
    {labels : List (Nat × Position × β)} (reached : Runs.run (step act) c labels = some d) :
    labels.length + d.total weight ≤ c.total weight := by
  induction labels generalizing c with
  | nil =>
    cases reached
    simp
  | cons l labels ih =>
    cases taken : step act c l with
    | none => simp [Runs.run,taken] at reached
    | some mid =>
      rw [Runs.run_cons taken] at reached
      obtain ⟨a,tops,result,others,one⟩ := stepped taken
      have lower := lowers _ _ _ _ _ one.acted
      have before := (one.labels.map weight).sum_nat
      have after := (one.labels'.map weight).sum_nat
      have shorter := ih reached
      simp only [List.map_cons,List.map_append,List.sum_cons,List.sum_append_nat] at before after
      simp only [total] at shorter ⊢
      rw [List.length_cons]
      omega

end Calls

end Calls

end Vbe.Library
