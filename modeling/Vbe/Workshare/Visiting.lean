import Mathlib.Algebra.BigOperators.Group.List.Basic
import Mathlib.Algebra.GroupWithZero.Nat
import Vbe.Workshare.Walks

/-! Going through a tree with a pool, as the package says to do it, gives what going through it in one goroutine does. -/
namespace Vbe.Workshare
open Vbe.Library Family

section Model

inductive Tree (ν : Type)
  | node (label : ν) (children : List (Tree ν))

variable {ν β ε : Type}

def Tree.label : Tree ν → ν
  | node label _ => label

def Tree.children : Tree ν → List (Tree ν)
  | node _ children => children

variable [Add β] (own : ν → Except ε β)

def addResults (total : β) : List (Except ε β) → Except ε β
  | [] => .ok total
  | .ok result :: left => addResults (total + result) left
  | .error err :: _ => .error err

def failed (result : Except ε β) : Bool :=
  match result with
  | .ok _ => false
  | .error _ => true

/-- The visit of a node that may fail itself, and has a value that those of its children are added to. -/
def visitNode : Walk Unit (Tree ν) (Except ε β) where
  enter _ n :=
    match own n.label with
    | .ok _ => .children n.children
    | .error err => .answer (.error err)
  stops := failed
  stopped _ _ result := result
  finish n calls group :=
    match own n.label with
    | .ok value => addResults value (calls ++ group)
    | .error err => .error err
  leave memory _ _ := memory

mutual

/-- The visit in one goroutine. -/
def Tree.sequential : Tree ν → Except ε β
  | node label children =>
    match own label with
    | .ok value => sequentialAll value children
    | .error err => .error err

def Tree.sequentialAll (total : β) : List (Tree ν) → Except ε β
  | [] => .ok total
  | child :: left =>
    match child.sequential with
    | .ok result => sequentialAll (total + result) left
    | .error err => .error err

end

end Model

section Trees
variable {ν β ε : Type} [AddCommMonoid β] {own : ν → Except ε β} {t : Tree ν}

mutual

def Tree.labels : Tree ν → List ν
  | node label children => label :: labelsAll children

def Tree.labelsAll : List (Tree ν) → List ν
  | [] => []
  | child :: left => child.labels ++ labelsAll left

end

def failure? (result : Except ε β) : Option ε :=
  match result with
  | .ok _ => none
  | .error err => some err

def value (result : Except ε β) : β :=
  match result with
  | .ok value => value
  | .error _ => 0

/-- The errors of all nodes. -/
def Tree.failures (own : ν → Except ε β) (t : Tree ν) : List ε := t.labels.filterMap fun label => failure? (own label)

def Tree.total (own : ν → Except ε β) (t : Tree ν) : β := (t.labels.map fun label => value (own label)).sum

theorem Tree.labelsAll_eq (children : List (Tree ν)) : labelsAll children = children.flatMap labels := by
  induction children with
  | nil => rfl
  | cons child left ih => rw [labelsAll,ih,List.flatMap_cons]

theorem Tree.labels_eq (t : Tree ν) : t.labels = t.label :: t.children.flatMap labels := by
  obtain ⟨label,children⟩ := t
  rw [labels,labelsAll_eq]
  rfl

omit [AddCommMonoid β] in
theorem Tree.failures_eq (own : ν → Except ε β) (t : Tree ν) :
    t.failures own = (failure? (own t.label)).toList ++ t.children.flatMap (failures own) := by
  rw [failures,labels_eq,List.filterMap_cons,List.filterMap_flatMap]
  cases failure? (own t.label) <;> rfl

theorem Tree.total_eq (own : ν → Except ε β) (t : Tree ν) :
    t.total own = value (own t.label) + (t.children.map (total own)).sum := by
  rw [total,labels_eq,List.map_cons,List.sum_cons]
  congr 1
  induction t.children with
  | nil => rfl
  | cons child left ih => rw [List.flatMap_cons,List.map_append,List.sum_append,ih,List.map_cons,List.sum_cons,total]

/-- A tree without failures gives its total, and another an error of one of its nodes. -/
def Right (own : ν → Except ε β) (t : Tree ν) : Except ε β → Prop
  | .ok result => t.failures own = [] ∧ result = t.total own
  | .error err => err ∈ t.failures own

mutual

theorem Tree.sequential_right : ∀ t : Tree ν, Right own t (t.sequential own)
  | node label children => by
    rw [sequential]
    have here := failures_eq own (node label children)
    have sum := total_eq own (node label children)
    simp only [Tree.label,Tree.children] at here sum
    cases is : own label with
    | error err =>
      rw [is] at here
      simp [Right,here,failure?]
    | ok value_ =>
      rw [is] at here sum
      have all := sequentialAll_right value_ children
      revert all
      simp only
      cases sequentialAll own value_ children with
      | ok result =>
        intro all
        exact ⟨here.trans (by simpa [failure?] using all.1),all.2.trans sum.symm⟩
      | error err =>
        intro all
        simpa [Right,here,failure?] using all

theorem Tree.sequentialAll_right (total_ : β) : ∀ children : List (Tree ν),
    match sequentialAll own total_ children with
    | .ok result => (∀ c ∈ children, c.failures own = []) ∧ result = total_ + (children.map (total own)).sum
    | .error err => ∃ c ∈ children, err ∈ c.failures own
  | [] => by simp [sequentialAll]
  | child :: left => by
    rw [sequentialAll]
    have first := sequential_right child
    revert first
    cases child.sequential own with
    | error err => exact fun first => ⟨child,List.mem_cons_self,first⟩
    | ok result =>
      intro first
      have rest := sequentialAll_right (total_ + result) left
      revert rest
      simp only
      cases sequentialAll own (total_ + result) left with
      | ok sum =>
        intro rest
        refine ⟨List.forall_mem_cons.mpr ⟨first.1,rest.1⟩,?_⟩
        rw [rest.2,first.2,List.map_cons,List.sum_cons,add_assoc]
      | error err => exact fun ⟨c,member,wrong⟩ => ⟨c,List.mem_cons_of_mem child member,wrong⟩

end

theorem Right.ok_iff {r : Except ε β} (right : Right own t r) (result : β) : r = .ok result ↔ t.sequential own = .ok result := by
  have other : Right own t (t.sequential own) := Tree.sequential_right t
  revert other
  cases t.sequential own with
  | ok b =>
    intro other
    cases r with
    | ok b' => rw [right.2,other.2]
    | error err => exact absurd (other.1 ▸ right : err ∈ []) List.not_mem_nil
  | error err =>
    intro other
    cases r with
    | ok b' => exact absurd (right.1 ▸ other : err ∈ []) List.not_mem_nil
    | error err' => simp

end Trees

section Visits
variable {ν β ε : Type} [AddCommMonoid β] {own : ν → Except ε β} {t : Tree ν} {r : Except ε β} {numWorkers : Int}

theorem addResults_right (total : β) {parts : List (Tree ν × Except ε β)} (right : ∀ p ∈ parts, Right own p.1 p.2) :
    match addResults total (parts.map Prod.snd) with
    | .ok result => (∀ p ∈ parts, p.1.failures own = []) ∧ result = total + (parts.map fun p => p.1.total own).sum
    | .error err => ∃ p ∈ parts, err ∈ p.1.failures own := by
  induction parts generalizing total with
  | nil => simp [addResults]
  | cons p parts ih =>
    obtain ⟨t,r⟩ := p
    have first := right _ List.mem_cons_self
    cases r with
    | error err => exact ⟨_,List.mem_cons_self,first⟩
    | ok result =>
      have rest := ih (total + result) fun q member => right q (List.mem_cons_of_mem _ member)
      rw [List.map_cons,addResults]
      revert rest
      cases addResults (total + result) (parts.map Prod.snd) with
      | ok sum =>
        intro rest
        refine ⟨List.forall_mem_cons.mpr ⟨first.1,rest.1⟩,?_⟩
        rw [rest.2,first.2,List.map_cons,List.sum_cons,add_assoc]
      | error err => exact fun ⟨q,member,wrong⟩ => ⟨q,List.mem_cons_of_mem _ member,wrong⟩

/-- The results of all children, those of the calls first. -/
theorem collected_right {v : β} {parts : List (Part (Tree ν) (Except ε β))} (is : own t.label = .ok v)
    (each : parts.map Part.input = t.children) (right : ∀ p ∈ parts, Right own p.input p.result) :
    Right own t (addResults v (Part.calls parts ++ Part.group parts)) := by
  have order : (parts.filter (!·.async) ++ parts.filter Part.async).Perm parts :=
    List.perm_append_comm.trans (List.filter_append_perm Part.async parts)
  have found := addResults_right v (fun q (member : q ∈ (parts.filter (!·.async) ++ parts.filter Part.async).map fun p => (p.input,p.result)) => by
      obtain ⟨p,there,rfl⟩ := List.mem_map.mp member
      exact right p (order.mem_iff.mp there))
  have results : ((parts.filter (!·.async) ++ parts.filter Part.async).map fun p => (p.input,p.result)).map Prod.snd =
      Part.calls parts ++ Part.group parts := by
    rw [List.map_map,List.map_append]
    rfl
  rw [results] at found
  revert found
  cases addResults v (Part.calls parts ++ Part.group parts) with
  | ok result =>
    rintro ⟨clean,sum⟩
    constructor
    · rw [Tree.failures_eq,is,← each,List.flatMap_map]
      refine List.append_eq_nil_iff.mpr ⟨rfl,List.flatMap_eq_nil_iff.mpr fun p member => ?_⟩
      exact clean _ (List.mem_map.mpr ⟨p,order.mem_iff.mpr member,rfl⟩)
    · rw [sum,Tree.total_eq,is,← each,List.map_map,List.map_map,(order.map _).sum_eq]
      rfl
  | error err =>
    rintro ⟨q,member,wrong⟩
    obtain ⟨p,there,rfl⟩ := List.mem_map.mp member
    rw [Right,Tree.failures_eq,← each]
    exact List.mem_append_right _ (List.mem_flatMap.mpr ⟨p.input,List.mem_map_of_mem (order.mem_iff.mp there),wrong⟩)

/-- Whichever children were handed over, the result is right. -/
theorem gives_right (gives : (visitNode own).Gives ((visitNode own).enter ()) t r) : Right own t r := by
  induction gives with
  | @answer n r at_ =>
    simp only [visitNode] at at_
    split at at_
    next => cases at_
    next err is =>
      cases at_
      rw [Right,Tree.failures_eq,is]
      exact List.mem_cons_self
  | @all n inputs at_ parts each _ go right =>
    simp only [visitNode] at at_ ⊢
    split at at_
    next v is =>
      cases at_
      exact collected_right is each right
    next => cases at_
  | @stop n inputs c r at_ inside _ stops right =>
    simp only [visitNode] at at_ stops ⊢
    split at at_
    next v is =>
      cases at_
      cases r with
      | ok => cases stops
      | error err =>
        rw [Right,Tree.failures_eq]
        exact List.mem_append_right _ (List.mem_flatMap.mpr ⟨c,inside,right⟩)
    next => cases at_

theorem sound_visit : (visitNode own).Sound ((visitNode own).enter ()) fun _ => True where
  hit _ at_ := by
    simp only [visitNode] at at_
    split at at_ <;> cases at_
  answer _ at_ := at_
  children _ at_ := at_
  leave _ _ := trivial

theorem sized_visit : (visitNode own).Sized fun t => 12 * (t.labels.length - 1) := by
  intro m t inputs at_
  simp only [visitNode] at at_
  split at at_
  next =>
    cases at_
    dsimp only
    rw [Tree.labels_eq,List.length_cons]
    refine Nat.le_of_eq ?_
    induction t.children with
    | nil => rfl
    | cons child left ih =>
      rw [List.map_cons,List.sum_cons,ih,List.flatMap_cons,List.length_append,Tree.labels_eq child,List.length_cons]
      omega
  next => cases at_

/-- However many workers there are and however the goroutines take turns, goroutines that go through trees with one pool all come to an
end, and each has the total of its tree, or an error of one of its nodes where the visit in one goroutine has an error. -/
theorem visits_agree {c : Library.Calls (Pool Unit) (Task (Request (Tree ν) (Except ε β))) Unit} {labels : List (Nat × Position × Unit)}
    {trees : List (Tree ν)}
    (reached : Runs.run (Library.Calls.step (act (visitNode own).process numWorkers)) (Walk.start numWorkers () trees) labels = some c) :
    labels.length ≤ (trees.map fun t => 36 * t.labels.length).sum ∧
      ((∀ l, Library.Calls.step (act (visitNode own).process numWorkers) c l = none) →
        List.Forall₂ (fun call t => ∃ r, answer? call = some r ∧ (∀ total, r = .ok total ↔ t.sequential own = .ok total) ∧
          ∀ err, r = .error err → err ∈ t.failures own) c.calls trees) := by
  constructor
  · have bound := walks_length sized_visit reached
    refine Nat.le_trans bound ?_
    clear bound reached
    induction trees with
    | nil => exact Nat.le_refl _
    | cons t trees ih =>
      rw [List.map_cons,List.sum_cons,List.map_cons,List.sum_cons,Tree.labels_eq t,List.length_cons]
      omega
  · intro stuck
    refine (walks_give sound_visit trivial reached stuck).imp fun call t gives => ?_
    obtain ⟨r,is,gives⟩ := gives
    have right := gives_right gives
    refine ⟨r,is,right.ok_iff,fun err wrong => ?_⟩
    rw [wrong] at right
    exact right

/-- A child that another goroutine visits. -/
theorem visits_agree_pair :
    let own : Nat → Except String Nat := .ok
    let root := Tree.node 1 [.node 2 []]
    let places : List Position := [.here,.here] ++ List.replicate 10 (.inside .here) ++ List.replicate 4 .here ++ [.inside .here]
    let labels := places.map fun p => (0,p,())
    ∃ c, Runs.run (Library.Calls.step (act (visitNode own).process 1)) (Walk.start 1 () [root]) labels = some c ∧
      labels.length ≤ ([root].map fun t => 36 * t.labels.length).sum := by
  intro own root places labels
  obtain ⟨c,reached⟩ : ∃ c, Runs.run (Library.Calls.step (act (visitNode own).process 1)) (Walk.start 1 () [root]) labels = some c :=
    Option.isSome_iff_exists.mp (by decide +kernel)
  exact ⟨c,reached,(visits_agree reached).1⟩

end Visits

end Vbe.Workshare
