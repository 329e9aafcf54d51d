import Vbe.Workshare.Handover

/-! Going through a structure with a pool: what is inside is handed over or processed at once, in a loop that stops where a call says
so, and the results of both are put together after the wait. Whatever the goroutines do, each result is one that the structure gives. -/
namespace Vbe.Workshare
open Vbe.Library Family

section Model
variable {μ ι ρ : Type}

/-- What processing an input begins with. -/
inductive Entered (ι ρ : Type)
  | hit (result : ρ)
  | answer (result : ρ)
  | children (inputs : List ι)

/-- How inputs are processed. A hit is returned as it is, and after other results something may be left in what all share. -/
structure Walk (μ ι ρ : Type) where
  enter : μ → ι → Entered ι ρ
  stops : ρ → Bool
  stopped : ι → ι → ρ → ρ
  finish : ι → List ρ → List ρ → ρ
  leave : μ → ι → ρ → μ

inductive Stage (ι ρ : Type)
  | enter
  | loop (results : List ρ) (left : List ι)
  | calling (results : List ρ) (left : List ι)
  | collect (results : List ρ)
  | close (result : ρ)
  | closing (result : ρ)
  | leave (result : ρ)
  | returned (result : ρ)

structure Request (ι ρ : Type) where
  input : ι
  stage : Stage ι ρ

def Request.result? (r : Request ι ρ) : Option ρ :=
  match r.stage with
  | .returned result => some result
  | _ => none

variable (walk : Walk μ ι ρ)

/-- The process function of a walk. A group that is not waited for is closed. -/
def Walk.process : ProcessFunc μ (Request ι ρ) where
  next memory r :=
    match r.stage with
    | .enter =>
      match walk.enter memory r.input with
      | .hit result => .go memory { r with stage := .returned result }
      | .answer result => .go memory { r with stage := .leave result }
      | .children inputs => .go memory { r with stage := .loop [] inputs }
    | .loop results (child :: left) =>
      .child memory ⟨child,.enter⟩ { r with stage := .loop results left } { r with stage := .calling results left }
    | .loop results [] => .wait { r with stage := .collect results }
    | .close result => .wait { r with stage := .closing result }
    | .leave result => .go (walk.leave memory r.input result) { r with stage := .returned result }
    | _ => .ret
  called r child :=
    match r.stage, child.stage with
    | .calling results left, .returned result =>
      if walk.stops result then { r with stage := .close (walk.stopped r.input child.input result) }
      else { r with stage := .loop (results ++ [result]) left }
    | _, _ => r
  waited r requests :=
    match r.stage with
    | .collect results => { r with stage := .leave (walk.finish r.input results (requests.filterMap Request.result?)) }
    | .closing result => { r with stage := .leave result }
    | _ => r

/-- One of the inputs in a structure: whether it was handed over, and what it gave. -/
structure Part (ι ρ : Type) where
  async : Bool
  input : ι
  result : ρ

namespace Part

def calls (parts : List (Part ι ρ)) : List ρ := (parts.filter (!·.async)).map Part.result

def group (parts : List (Part ι ρ)) : List ρ := (parts.filter Part.async).map Part.result

end Part

/-- What an input gives without anything shared: any of the inputs in it may be handed over, and any may stop the loop. -/
inductive Walk.Gives (walk : Walk μ ι ρ) (enter : ι → Entered ι ρ) : ι → ρ → Prop
  | answer {i r} (at_ : enter i = .answer r) : Gives walk enter i r
  | all {i inputs} (at_ : enter i = .children inputs) (parts : List (Part ι ρ)) (each : parts.map Part.input = inputs)
    (give : ∀ p ∈ parts, Gives walk enter p.input p.result) (go : ∀ p ∈ parts, p.async = false → walk.stops p.result = false) :
    Gives walk enter i (walk.finish i (Part.calls parts) (Part.group parts))
  | stop {i inputs c r} (at_ : enter i = .children inputs) (inside : c ∈ inputs) (give : Gives walk enter c r)
    (stops : walk.stops r = true) : Gives walk enter i (walk.stopped i c r)

/-- What is shared makes no difference to what inputs give. -/
structure Walk.Sound (walk : Walk μ ι ρ) (enter : ι → Entered ι ρ) (good : μ → Prop) : Prop where
  hit : ∀ {m i r}, good m → walk.enter m i = .hit r → walk.Gives enter i r
  answer : ∀ {m i r}, good m → walk.enter m i = .answer r → enter i = .answer r
  children : ∀ {m i inputs}, good m → walk.enter m i = .children inputs → enter i = .children inputs
  leave : ∀ {m i r}, good m → walk.Gives enter i r → good (walk.leave m i r)

end Model

section Keeping
variable {μ ι ρ : Type} {walk : Walk μ ι ρ} {enter : ι → Entered ι ρ} {good : μ → Prop} {numWorkers : Int}

/-- What of a request that was started never changes. -/
def given (t : Task (Request ι ρ)) : Bool × ι := (t.async,t.state.input)

/-- The loop has gone through the inputs that were started, and has the results of its own calls. -/
structure Seen (walk : Walk μ ι ρ) (enter : ι → Entered ι ρ) (input : ι) (started : List (Bool × ι)) (results : List ρ) (left : List ι) :
    Prop where
  inputs : enter input = .children ((started.map Prod.snd).reverse ++ left)
  calls : List.Forall₂ (fun i r => walk.Gives enter i r ∧ walk.stops r = false) ((started.filter (!·.1)).map Prod.snd).reverse results

/-- How far a request has come. -/
def Walked (walk : Walk μ ι ρ) (enter : ι → Entered ι ρ) (input : ι) (started : List (Bool × ι)) : Place → Stage ι ρ → Prop
  | .sent, .enter | .taken, .enter | .running, .enter => started = []
  | .running, .loop results left => Seen walk enter input started results left
  | .calling, .calling results left => ∃ child rest, started = (false,child) :: rest ∧ Seen walk enter input rest results (child :: left)
  | .waiting, .collect results => Seen walk enter input started results []
  | .running, .close result | .waiting, .closing result | .running, .leave result
  | .running, .returned result | .processed, .returned result | .counted, .returned result | .released, .returned result
  | .signalled, .returned result | .finished, .returned result => walk.Gives enter input result
  | _, _ => False

def Holds (walk : Walk μ ι ρ) (enter : ι → Entered ι ρ) (t : Task (Request ι ρ)) (started : List (Task (Request ι ρ))) : Prop :=
  Walked walk enter t.state.input (started.map given) t.place t.state.stage

variable {pool : Pool μ} {t : Task (Request ι ρ)} {started : List (Task (Request ι ρ))} {r : Action (Pool μ) (Task (Request ι ρ)) Unit}
  {m m' : μ} {k k' request shared inline : Request ι ρ}

theorem next_go (next : walk.process.next m k = .go m' k') :
    (k.stage = .enter ∧ m' = m ∧
      ((∃ result, walk.enter m k.input = .hit result ∧ k' = { k with stage := .returned result }) ∨
        (∃ result, walk.enter m k.input = .answer result ∧ k' = { k with stage := .leave result }) ∨
        ∃ inputs, walk.enter m k.input = .children inputs ∧ k' = { k with stage := .loop [] inputs })) ∨
      ∃ result, k.stage = .leave result ∧ m' = walk.leave m k.input result ∧ k' = { k with stage := .returned result } := by
  obtain ⟨input,stage⟩ := k
  cases stage with
  | enter =>
    simp only [Walk.process] at next
    split at next
    next result is =>
      cases next
      exact .inl ⟨rfl,rfl,.inl ⟨result,is,rfl⟩⟩
    next result is =>
      cases next
      exact .inl ⟨rfl,rfl,.inr (.inl ⟨result,is,rfl⟩)⟩
    next inputs is =>
      cases next
      exact .inl ⟨rfl,rfl,.inr (.inr ⟨inputs,is,rfl⟩)⟩
  | loop results left => cases left <;> cases next
  | leave result =>
    cases next
    exact .inr ⟨result,rfl,rfl,rfl⟩
  | _ => cases next

theorem next_child (next : walk.process.next m k = .child m' request shared inline) : ∃ results child left,
    k.stage = .loop results (child :: left) ∧ m' = m ∧ request = ⟨child,.enter⟩ ∧ shared = { k with stage := .loop results left } ∧
      inline = { k with stage := .calling results left } := by
  obtain ⟨input,stage⟩ := k
  cases stage with
  | enter =>
    simp only [Walk.process] at next
    split at next <;> cases next
  | loop results left =>
    cases left with
    | nil => cases next
    | cons child left =>
      cases next
      exact ⟨results,child,left,rfl,rfl,rfl,rfl,rfl⟩
  | _ => cases next

theorem next_wait (next : walk.process.next m k = .wait k') :
    (∃ results, k.stage = .loop results [] ∧ k' = { k with stage := .collect results }) ∨
      ∃ result, k.stage = .close result ∧ k' = { k with stage := .closing result } := by
  obtain ⟨input,stage⟩ := k
  cases stage with
  | enter =>
    simp only [Walk.process] at next
    split at next <;> cases next
  | loop results left =>
    cases left with
    | nil =>
      cases next
      exact .inl ⟨results,rfl,rfl⟩
    | cons child left => cases next
  | close result =>
    cases next
    exact .inr ⟨result,rfl,rfl⟩
  | _ => cases next

theorem called_input (k child : Request ι ρ) : (walk.process.called k child).input = k.input := by
  simp only [Walk.process]
  split
  · split <;> rfl
  · rfl

theorem waited_input (k : Request ι ρ) (requests : List (Request ι ρ)) : (walk.process.waited k requests).input = k.input := by
  simp only [Walk.process]
  split <;> rfl

theorem Acts.given (acts : Acts walk.process numWorkers pool started t r) : given r.label = given t := by
  cases acts with
  | went _ next =>
    obtain ⟨_,_,⟨_,_,rfl⟩ | ⟨_,_,rfl⟩ | ⟨_,_,rfl⟩⟩ | ⟨_,_,_,rfl⟩ := next_go next <;> rfl
  | shared _ next =>
    obtain ⟨_,_,_,_,_,_,rfl,_⟩ := next_child next
    rfl
  | called _ next =>
    obtain ⟨_,_,_,_,_,_,_,rfl⟩ := next_child next
    rfl
  | waits _ next => obtain ⟨_,_,rfl⟩ | ⟨_,_,rfl⟩ := next_wait next <;> rfl
  | back => exact congrArg (Prod.mk _) (called_input _ _)
  | waited => exact congrArg (Prod.mk _) (waited_input _ _)
  | _ => rfl

/-- What a group knows to be done has a result. -/
theorem Holds.done (holds : Holds walk enter t started) (done : t.done = true) :
    ∃ result, t.state.stage = .returned result ∧ walk.Gives enter t.state.input result := by
  obtain ⟨async,place,input,stage⟩ := t
  cases place <;> simp [Task.done] at done <;> cases stage <;> first | exact ⟨_,rfl,holds⟩ | exact holds.elim

/-- The results of the calls and those of the group, put together. -/
theorem exists_parts {l : List (Bool × ι)} {results others : List ρ}
    (calls : List.Forall₂ (fun i r => walk.Gives enter i r ∧ walk.stops r = false) ((l.filter (!·.1)).map Prod.snd) results)
    (group : List.Forall₂ (walk.Gives enter) ((l.filter Prod.fst).map Prod.snd) others) :
    ∃ parts : List (Part ι ρ), parts.map Part.input = l.map Prod.snd ∧ Part.calls parts = results ∧ Part.group parts = others ∧
      (∀ p ∈ parts, walk.Gives enter p.input p.result) ∧ ∀ p ∈ parts, p.async = false → walk.stops p.result = false := by
  induction l generalizing results others with
  | nil =>
    cases calls
    cases group
    exact ⟨[],rfl,rfl,rfl,by simp,by simp⟩
  | cons s l ih =>
    obtain ⟨async,input⟩ := s
    cases async with
    | true =>
      rw [List.filter_cons_of_pos rfl,List.map_cons] at group
      obtain ⟨r,others,gives,later,rfl⟩ := List.forall₂_cons_left_iff.mp group
      obtain ⟨parts,inputs,rfl,rfl,all,go⟩ := ih calls later
      exact ⟨⟨true,input,r⟩ :: parts,congrArg (input :: ·) inputs,rfl,rfl,List.forall_mem_cons.mpr ⟨gives,all⟩,
        List.forall_mem_cons.mpr ⟨fun wrong => absurd wrong (by simp),go⟩⟩
    | false =>
      rw [List.filter_cons_of_pos rfl,List.map_cons] at calls
      obtain ⟨r,results,gives,later,rfl⟩ := List.forall₂_cons_left_iff.mp calls
      obtain ⟨parts,inputs,rfl,rfl,all,go⟩ := ih later group
      exact ⟨⟨false,input,r⟩ :: parts,congrArg (input :: ·) inputs,rfl,rfl,List.forall_mem_cons.mpr ⟨gives.1,all⟩,
        List.forall_mem_cons.mpr ⟨fun _ => gives.2,go⟩⟩

/-- The results of the requests of a group that is done. -/
theorem group_results {started : List (Task (Request ι ρ))}
    (done : ∀ b ∈ started, ∃ result, b.state.stage = .returned result ∧ walk.Gives enter b.state.input result) :
    List.Forall₂ (walk.Gives enter) (((started.map given).filter Prod.fst).map Prod.snd).reverse
      ((Task.requests started).filterMap Request.result?) := by
  rw [Task.requests,List.map_reverse,List.filterMap_reverse,List.forall₂_reverse_iff]
  induction started with
  | nil => exact .nil
  | cons b started ih =>
    have later := ih fun b' member => done b' (List.mem_cons_of_mem b member)
    obtain ⟨result,is,gives⟩ := done b List.mem_cons_self
    cases async : b.async with
    | true =>
      have told : b.state.result? = some result := by rw [Request.result?,is]
      have first : (given b).1 = true := async
      rw [List.map_cons,List.filter_cons_of_pos first,List.filter_cons_of_pos async,List.map_cons,List.map_cons,
        List.filterMap_cons_some told]
      exact .cons gives later
    | false =>
      rw [List.map_cons,List.filter_cons_of_neg (by simp [given,async]),List.filter_cons_of_neg (by simp [async])]
      exact later

/-- What the loop and the group have found is a result of the whole. -/
theorem Seen.finished {input : ι} {results : List ρ} (seen : Seen walk enter input (started.map given) results [])
    (done : ∀ b ∈ started, ∃ result, b.state.stage = .returned result ∧ walk.Gives enter b.state.input result) :
    walk.Gives enter input (walk.finish input results ((Task.requests started).filterMap Request.result?)) := by
  have calls := seen.calls
  have group := group_results done
  rw [← List.map_reverse,← List.filter_reverse] at calls group
  obtain ⟨parts,inputs,rfl,same,gives,go⟩ := exists_parts calls group
  rw [← same]
  refine .all seen.inputs parts ?_ gives go
  rw [inputs,List.append_nil,List.map_reverse]

theorem keeping_walks (sound : walk.Sound enter good) :
    Keeping (act walk.process numWorkers) (fun pool => good pool.memory) (Holds walk enter) := by
  constructor
  · intro pool t started _ r well inner holds acted
    have none : ∀ b ∈ ([] : List (Task (Request ι ρ))), Holds walk enter b [] := fun b member => absurd member List.not_mem_nil
    cases acts acted with
    | @went async k memory _ _ next =>
      obtain ⟨input,stage⟩ := k
      obtain ⟨rfl,rfl,⟨result,is,rfl⟩ | ⟨result,is,rfl⟩ | ⟨inputs,is,rfl⟩⟩ | ⟨result,rfl,rfl,rfl⟩ := next_go next
      · exact ⟨well,sound.hit well is,none⟩
      · exact ⟨well,.answer (sound.answer well is),none⟩
      · have fresh : started.map given = [] := holds
        refine ⟨well,?_,none⟩
        show Seen walk enter input (started.map given) [] inputs
        rw [fresh]
        exact ⟨sound.children well is,.nil⟩
      · exact ⟨sound.leave well holds,holds,none⟩
    | @shared async k _ _ _ _ _ next =>
      obtain ⟨input,stage⟩ := k
      obtain ⟨results,child,left,rfl,rfl,rfl,rfl,_⟩ := next_child next
      have seen : Seen walk enter input (started.map given) results (child :: left) := holds
      refine ⟨well,?_,fun b member => ?_⟩
      · show Seen walk enter input ((true,child) :: started.map given) results left
        refine ⟨?_,seen.calls⟩
        rw [List.map_cons,List.reverse_cons,List.append_assoc]
        exact seen.inputs
      · rw [List.mem_singleton.mp member]
        rfl
    | @called async k _ _ _ _ _ next =>
      obtain ⟨input,stage⟩ := k
      obtain ⟨results,child,left,rfl,rfl,rfl,_,rfl⟩ := next_child next
      refine ⟨well,⟨child,started.map given,rfl,holds⟩,fun b member => ?_⟩
      rw [List.mem_singleton.mp member]
      rfl
    | @waits async k _ _ next =>
      obtain ⟨input,stage⟩ := k
      obtain ⟨results,rfl,rfl⟩ | ⟨result,rfl,rfl⟩ := next_wait next
      · exact ⟨well,holds,none⟩
      · exact ⟨well,holds,none⟩
    | @returned async k _ next =>
      obtain ⟨input,stage⟩ := k
      cases stage with
      | returned result => cases async <;> exact ⟨well,holds,none⟩
      | enter =>
        simp only [Walk.process] at next
        split at next <;> cases next
      | loop results left => cases left <;> cases next
      | close | leave => cases next
      | _ => exact holds.elim
    | @back async k child rest first ended =>
      obtain ⟨input,stage⟩ := k
      subst first
      cases stage with
      | calling results left =>
        obtain ⟨_,_,same,seen⟩ := holds
        rw [List.map_cons] at same
        obtain ⟨head,rfl⟩ := List.cons.inj same
        obtain ⟨alone,rfl⟩ := Prod.mk.inj head
        obtain ⟨_,held⟩ := inner child List.mem_cons_self
        obtain ⟨result,is,gives⟩ := held.done (by simp [Task.done,ended])
        refine ⟨well,?_,none⟩
        simp only [Walk.process,is]
        cases stops : walk.stops result with
        | true =>
          refine .stop seen.inputs ?_ gives stops
          simp
        | false =>
          show Seen walk enter input (given child :: rest.map given) (results ++ [result]) left
          have whole := seen.inputs
          have calls := seen.calls
          refine ⟨?_,?_⟩
          · rw [List.map_cons,List.reverse_cons,List.append_assoc]
            exact whole
          · rw [List.filter_cons_of_pos (by simp [given] at alone ⊢; exact alone),List.map_cons,List.reverse_cons]
            exact List.rel_append calls (.cons ⟨gives,stops⟩ .nil)
      | _ => exact holds.elim
    | @waited async k all =>
      obtain ⟨input,stage⟩ := k
      have done (b : Task (Request ι ρ)) (member : b ∈ started) :
          ∃ result, b.state.stage = .returned result ∧ walk.Gives enter b.state.input result := by
        obtain ⟨_,held⟩ := inner b member
        exact held.done (all b member)
      cases stage with
      | collect results => exact ⟨well,Seen.finished holds done,none⟩
      | closing result => exact ⟨well,holds,none⟩
      | _ => exact holds.elim
    | @taken async k _ | @begun async k =>
      obtain ⟨input,stage⟩ := k
      cases stage with
      | enter => exact ⟨well,holds,none⟩
      | _ => exact holds.elim
    | @counted async k | @released async k | @signalled async k | @idle async k =>
      obtain ⟨input,stage⟩ := k
      cases stage with
      | returned result => exact ⟨well,holds,none⟩
      | _ => exact holds.elim
  · intro _ t before b after tops _ r _ acted holds
    have same := (acts acted).given
    rw [Holds,List.map_append,List.map_cons] at holds ⊢
    rw [same]
    exact holds

end Keeping

section Runs
variable {μ ι ρ : Type} {walk : Walk μ ι ρ} {enter : ι → Entered ι ρ} {good : μ → Prop} {numWorkers : Int}
  {c : Library.Calls (Pool μ) (Task (Request ι ρ)) Unit} {labels : List (Nat × Position × Unit)} {memory : μ} {inputs : List ι}

/-- The state in which goroutines have an input each. -/
def Walk.start (numWorkers : Int) (memory : μ) (inputs : List ι) : Library.Calls (Pool μ) (Task (Request ι ρ)) Unit :=
  Workshare.start numWorkers memory (inputs.map fun i => ⟨i,.enter⟩)

/-- What a goroutine's input has given. -/
def answer? (call : Call (Task (Request ι ρ)) Unit) : Option ρ := (result call).bind Request.result?

theorem walked (sound : walk.Sound enter good) (well : good memory)
    (reached : Runs.run (Library.Calls.step (act walk.process numWorkers)) (Walk.start numWorkers memory inputs) labels = some c) :
    good c.shared.memory ∧ (∀ call ∈ c.calls, call.tasks.Everywhere (Holds walk enter)) ∧
      (c.calls.map fun call => call.tasks.tops.map given) = inputs.map fun i => [(false,i)] := by
  have kept (s l t) (inv : good s.shared.memory ∧ (∀ call ∈ s.calls, call.tasks.Everywhere (Holds walk enter)) ∧
        (s.calls.map fun call => call.tasks.tops.map given) = inputs.map fun i => [(false,i)]) (_ : True)
      (taken : Library.Calls.step (act walk.process numWorkers) s l = some t) :
      good t.shared.memory ∧ (∀ call ∈ t.calls, call.tasks.Everywhere (Holds walk enter)) ∧
        (t.calls.map fun call => call.tasks.tops.map given) = inputs.map fun i => [(false,i)] := by
    obtain ⟨well,all,tops⟩ := inv
    obtain ⟨well,all⟩ := Library.Calls.everywhere_step (keeping_walks sound) well all taken
    exact ⟨well,all,(Library.Calls.tops_map_step (fun _ _ _ _ _ acted => (acts acted).given) taken).trans tops⟩
  refine Runs.invariant kept ⟨well,?_,?_⟩ (Runs.meets_true _ _) reached
  · refine Library.Calls.everywhere_of_labels fun t member => ?_
    obtain ⟨k,there,rfl⟩ := List.mem_map.mp member
    obtain ⟨i,_,rfl⟩ := List.mem_map.mp there
    rfl
  · simp only [Walk.start,Workshare.start,Library.Calls.of,List.map_map]
    rfl

/-- When no goroutine can go on, each one has a result that its input gives. -/
theorem walks_give (sound : walk.Sound enter good) (well : good memory)
    (reached : Runs.run (Library.Calls.step (act walk.process numWorkers)) (Walk.start numWorkers memory inputs) labels = some c)
    (stuck : ∀ l, Library.Calls.step (act walk.process numWorkers) c l = none) :
    List.Forall₂ (fun call i => ∃ r, answer? call = some r ∧ walk.Gives enter i r) c.calls inputs := by
  obtain ⟨_,all,tops⟩ := walked sound well reached
  have finished (t : Task (Request ι ρ)) (member : t ∈ c.labels) : t.place = .finished := by
    by_contra unfinished
    obtain ⟨l,moved⟩ := exists_step reached ⟨t,member,unfinished⟩
    exact moved (stuck l)
  have same := List.forall₂_iff_get.mp (List.forall₂_map_left_iff.mp (List.forall₂_map_right_iff.mp (List.forall₂_eq_eq_eq ▸ tops)))
  refine List.forall₂_iff_get.mpr ⟨same.1,fun k first second => ?_⟩
  have here := same.2 k first second
  have member := List.get_mem c.calls ⟨k,first⟩
  have holds := all _ member
  have ended (t : Task (Request ι ρ)) (inside : t ∈ (c.calls.get ⟨k,first⟩).tasks.labels) : t.place = .finished :=
    finished t (List.mem_flatMap.mpr ⟨_,member,inside⟩)
  generalize c.calls.get ⟨k,first⟩ = call at here holds ended
  obtain ⟨tasks,log⟩ := call
  cases tasks with
  | nil => exact absurd here.symm (List.cons_ne_nil _ _)
  | cons t started rest =>
    obtain ⟨alone,_⟩ := List.cons.inj here
    have ended := ended t List.mem_cons_self
    obtain ⟨r,is,gives⟩ := holds.1.done (by simp [Task.done,ended])
    obtain ⟨async,place,input,stage⟩ := t
    obtain ⟨_,same_⟩ := Prod.mk.inj alone
    cases ended
    cases is
    exact ⟨r,rfl,same_ ▸ gives⟩

/-- Inputs have sizes that bound what is in them. -/
def Walk.Sized (walk : Walk μ ι ρ) (size : ι → Nat) : Prop :=
  ∀ {m i inputs}, walk.enter m i = .children inputs → (inputs.map fun c => size c + 12).sum ≤ size i

/-- What the inputs in a structure are. -/
def Inside (enter : ι → Entered ι ρ) (child i : ι) : Prop := ∃ inputs, enter i = .children inputs ∧ child ∈ inputs

/-- Inputs that are never inside each other have sizes. -/
theorem exists_size (founded : WellFounded (Inside enter)) :
    ∃ size : ι → Nat, ∀ {i inputs}, enter i = .children inputs → (inputs.map fun c => size c + 12).sum ≤ size i := by
  let body (i : ι) (inner : ∀ c, Inside enter c i → Nat) : Nat :=
    match at_ : enter i with
    | .children inputs => (inputs.attach.map fun c => inner c.1 ⟨inputs,at_,c.2⟩ + 12).sum
    | _ => 0
  refine ⟨founded.fix body,fun {i inputs} at_ => Nat.le_of_eq ?_⟩
  rw [founded.fix_eq]
  simp only [body]
  split
  next inputs' at' =>
    cases at_.symm.trans at'
    exact congrArg List.sum List.attach_map_val.symm
  next other => exact absurd at_ (other inputs)

def Request.rank (size : ι → Nat) (r : Request ι ρ) : Nat :=
  match r.stage with
  | .enter => size r.input + 6
  | .loop _ left => (left.map fun c => size c + 12).sum + 5
  | .calling _ left => (left.map fun c => size c + 12).sum + 6
  | .collect _ | .close _ => 4
  | .closing _ => 3
  | .leave _ => 2
  | .returned _ => 1

theorem lowers_walk {size : ι → Nat} (sized : walk.Sized size) : Lowers walk.process (Request.rank size) where
  go next := by
    obtain ⟨at_,_,⟨_,_,rfl⟩ | ⟨_,_,rfl⟩ | ⟨inputs,is,rfl⟩⟩ | ⟨_,at_,_,rfl⟩ := next_go next
    · simp [Request.rank,at_]
    · simp [Request.rank,at_]
    · have bound := sized is
      simp only [Request.rank,at_]
      omega
    · simp [Request.rank,at_]
  shared next := by
    obtain ⟨results,child,left,at_,_,rfl,rfl,_⟩ := next_child next
    simp only [Request.rank,at_,List.map_cons,List.sum_cons]
    omega
  inline next := by
    obtain ⟨results,child,left,at_,_,rfl,_,rfl⟩ := next_child next
    simp only [Request.rank,at_,List.map_cons,List.sum_cons]
    omega
  wait next := by
    obtain ⟨_,at_,rfl⟩ | ⟨_,at_,rfl⟩ := next_wait next
    · simp [Request.rank,at_]
    · simp [Request.rank,at_]
  called k child := by
    simp only [Walk.process]
    split
    next results left result at_ _ =>
      split
      next => simp [Request.rank,at_]
      next => simp [Request.rank,at_]
    next => exact Nat.le_refl _
  waited k requests := by
    simp only [Walk.process]
    split
    next results at_ => simp [Request.rank,at_]
    next result at_ => simp [Request.rank,at_]
    next => exact Nat.le_refl _

theorem walks_length {size : ι → Nat} (sized : walk.Sized size)
    (reached : Runs.run (Library.Calls.step (act walk.process numWorkers)) (Walk.start numWorkers memory inputs) labels = some c) :
    labels.length ≤ (inputs.map fun i => 3 * size i + 24).sum := by
  have bound := run_length (lowers_walk sized) reached
  rw [List.map_map] at bound
  refine Nat.le_trans bound (Nat.le_of_eq (congrArg List.sum (List.map_congr_left fun i _ => ?_)))
  simp only [Function.comp_apply,Request.rank]
  omega

end Runs

end Vbe.Workshare
