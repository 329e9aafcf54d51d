import Mathlib.Data.List.Infix
import Mathlib.Data.List.Flatten

/-! The tree of policies that paths of a source define. Paths are byte strings, and a map of paths is the
list of its entries. -/
namespace Vbe.Policy.PolicyTree

abbrev Path := List UInt8

def slash : UInt8 := 47

def dot : Path := [46]

/-- `map[string]*Policy`. -/
abbrev Defined (P : Type) := List (Path × P)

/-- `map[string]map[string]*Policy`. -/
abbrev Groups (P : Type) := List (Path × Defined P)

inductive Tree (P : Type) where
  | node (effective : Option P) (inherited : Bool) (children : List (Path × Tree P))

variable {P : Type}

namespace Tree

def effective : Tree P → Option P
  | .node effective _ _ => effective

def inherited : Tree P → Bool
  | .node _ inherited _ => inherited

def children : Tree P → List (Path × Tree P)
  | .node _ _ children => children

def DefinedPolicy (t : Option (Tree P)) : Option P :=
  match t with
  | none => none
  | some t => if t.inherited then none else t.effective

def EffectivePolicy (DefaultPolicy : P) (t : Option (Tree P)) : Option P :=
  match t with
  | none => some DefaultPolicy
  | some t => t.effective

/-- The child of a name that has no slash. -/
def childNamed (t : Tree P) (name : Path) : Tree P :=
  if name = dot ∨ name = [] then t
  else
    match t.children.lookup name with
    | some ch => ch
    | none => if t.children.length = 0 ∧ t.inherited then t else .node t.effective true []

def Child (t : Option (Tree P)) (name : Path) : Option (Tree P) :=
  match t with
  | none => none
  | some t =>
    let parts := name.splitOn slash
    if parts.length = 1 then some (t.childNamed name) else some (parts.foldl childNamed t)

end Tree

/-- `result[childName][k] = v`. -/
def addChild : Groups P → Path → Path × P → Groups P
  | [], childName, kv => [(childName,[kv])]
  | (name,group) :: rest, childName, kv =>
    if name = childName then (name,group ++ [kv]) :: rest else (name,group) :: addChild rest childName kv

def childNameOf (path k : Path) : Path := ((k.drop path.length).splitOn slash).headD []

def childrenStep (path : Path) (result : Groups P) (kv : Path × P) : Groups P :=
  if path.isPrefixOf kv.1 then addChild result (childNameOf path kv.1) kv else result

def childrenWithPrefix (m : Defined P) (path : Path) : Groups P := m.foldl (childrenStep path) []

def longest (m : Defined P) : Nat := m.foldr (fun kv n => max kv.1.length n) 0

theorem le_longest {m : Defined P} {kv : Path × P} (member : kv ∈ m) : kv.1.length ≤ longest m := by
  induction m with
  | nil => simp at member
  | cons first rest ih =>
    have step : longest (first :: rest) = max first.1.length (longest rest) := rfl
    rcases List.mem_cons.mp member with rfl | inside
    · omega
    · have bound := ih inside
      omega

theorem longest_le {m : Defined P} {n : Nat} (bound : ∀ kv ∈ m, kv.1.length ≤ n) : longest m ≤ n := by
  induction m with
  | nil => exact Nat.zero_le n
  | cons first rest ih =>
    have step : longest (first :: rest) = max first.1.length (longest rest) := rfl
    have head := bound first (by simp)
    have tail := ih fun kv member => bound kv (by simp [member])
    omega

/-- Every group holds some of the entries with the prefix. -/
def Grouped (m : Defined P) (path : Path) (result : Groups P) : Prop :=
  ∀ g ∈ result, g.2 ≠ [] ∧ ∀ kv ∈ g.2, kv ∈ m ∧ path <+: kv.1

theorem Grouped.addChild {m : Defined P} {path : Path} {result : Groups P} (grouped : Grouped m path result)
    (childName : Path) {kv : Path × P} (member : kv ∈ m) (starts : path <+: kv.1) :
    Grouped m path (addChild result childName kv) := by
  induction result with
  | nil =>
    intro g there
    cases List.mem_singleton.mp there
    exact ⟨by simp,fun kv' single => (List.mem_singleton.mp single) ▸ ⟨member,starts⟩⟩
  | cons first rest ih =>
    have head := grouped first (by simp)
    have tail : Grouped m path rest := fun g there => grouped g (by simp [there])
    intro g there
    rw [PolicyTree.addChild] at there
    split at there
    next same =>
      rcases List.mem_cons.mp there with rfl | inside
      · refine ⟨by simp,fun kv' here => ?_⟩
        rcases List.mem_append.mp here with earlier | last
        · exact head.2 kv' earlier
        · exact (List.mem_singleton.mp last) ▸ ⟨member,starts⟩
      · exact tail g inside
    next other =>
      rcases List.mem_cons.mp there with rfl | inside
      · exact head
      · exact ih tail g inside

theorem childrenWithPrefix_grouped (m : Defined P) (path : Path) : Grouped m path (childrenWithPrefix m path) := by
  have fold (rest : Defined P) (inside : ∀ kv ∈ rest, kv ∈ m) (result : Groups P) (grouped : Grouped m path result) :
      Grouped m path (rest.foldl (childrenStep path) result) := by
    induction rest generalizing result with
    | nil => exact grouped
    | cons kv rest ih =>
      refine ih (fun kv' member => inside kv' (by simp [member])) _ ?_
      unfold childrenStep
      split
      next starts => exact grouped.addChild _ (inside kv (by simp)) (List.isPrefixOf_iff_prefix.mp starts)
      next => exact grouped
  exact fold m (fun _ member => member) [] (by simp [Grouped])

/-- The paths below a child leave less room. -/
theorem descendants_shorter {m : Defined P} {path : Path} {g : Path × Defined P}
    (member : g ∈ childrenWithPrefix m (path ++ [slash])) :
    longest g.2 - (path ++ [slash] ++ g.1).length < longest m - path.length := by
  obtain ⟨some,inside⟩ := childrenWithPrefix_grouped m (path ++ [slash]) g member
  obtain ⟨kv,there⟩ := List.exists_mem_of_ne_nil _ some
  have long := (inside kv there).2.length_le
  have within := le_longest (inside kv there).1
  have fewer : longest g.2 ≤ longest m := longest_le fun kv' here => le_longest (inside kv' here).1
  simp only [List.length_append,List.length_singleton] at long ⊢
  omega

def buildTreeNode (defined : Defined P) (path : Path) (defaultPolicy : Option P) : Tree P :=
  let effective := (defined.lookup path).or defaultPolicy
  .node effective (defined.lookup path).isNone
    ((childrenWithPrefix defined (path ++ [slash])).attach.map fun child =>
      (child.1.1,buildTreeNode child.1.2 (path ++ [slash] ++ child.1.1) effective))
termination_by longest defined - path.length
decreasing_by exact descendants_shorter child.2

def BuildTree (defined : Defined P) (defaultPolicy : Option P) : Tree P := buildTreeNode defined dot defaultPolicy

theorem buildTreeNode_eq (defined : Defined P) (path : Path) (defaultPolicy : Option P) :
    buildTreeNode defined path defaultPolicy =
      .node ((defined.lookup path).or defaultPolicy) (defined.lookup path).isNone
        ((childrenWithPrefix defined (path ++ [slash])).map fun child =>
          (child.1,buildTreeNode child.2 (path ++ [slash] ++ child.1) ((defined.lookup path).or defaultPolicy))) := by
  rw [buildTreeNode]
  have plain := List.attach_map_val (l := childrenWithPrefix defined (path ++ [slash]))
    (f := fun child => (child.1,buildTreeNode child.2 (path ++ [slash] ++ child.1) ((defined.lookup path).or defaultPolicy)))
  exact congrArg _ plain

section Lookup

theorem lookup_map {α β γ : Type} [BEq α] [LawfulBEq α] (l : List (α × β)) (f : α → β → γ) (k : α) :
    (l.map fun x => (x.1,f x.1 x.2)).lookup k = (l.lookup k).map (f k) := by
  induction l with
  | nil => rfl
  | cons x l ih =>
    rw [List.map_cons,List.lookup_cons,List.lookup_cons]
    by_cases same : k = x.1
    · simp [same]
    · have other : (k == x.1) = false := by simpa using same
      simp only [other]
      exact ih

theorem lookup_filter {α β : Type} [BEq α] [LawfulBEq α] (l : List (α × β)) (p : α → Bool) (k : α) :
    (l.filter fun x => p x.1).lookup k = if p k then l.lookup k else none := by
  induction l with
  | nil => simp
  | cons x l ih =>
    rw [List.filter_cons,List.lookup_cons]
    by_cases same : k = x.1
    · subst same
      by_cases kept : p x.1
      · rw [if_pos kept,List.lookup_cons]
        simp [kept]
      · simp [kept,ih]
    · have other : (k == x.1) = false := by simpa using same
      split
      next kept => rw [List.lookup_cons,other,ih]
      next => rw [other,ih]

end Lookup

/-- The entries that go to the group of a name. -/
def descendants (m : Defined P) (path childName : Path) : Defined P :=
  m.filter fun kv => path.isPrefixOf kv.1 && childNameOf path kv.1 == childName

theorem lookup_addChild (result : Groups P) (childName : Path) (kv : Path × P) (name : Path) :
    (addChild result childName kv).lookup name =
      if name = childName then some ((result.lookup name).getD [] ++ [kv]) else result.lookup name := by
  induction result with
  | nil =>
    rw [addChild,List.lookup_cons]
    by_cases same : name = childName
    · simp [same]
    · have other : (name == childName) = false := by simpa using same
      simp [same,other]
  | cons g rest ih =>
    rw [addChild]
    split
    next own =>
      rw [List.lookup_cons,List.lookup_cons]
      by_cases same : name = g.1
      · simp [same,own]
      · have other : (name == g.1) = false := by simpa using same
        have elsewhere : name ≠ childName := fun equal => same (equal.trans own.symm)
        simp [other,elsewhere]
    next different =>
      rw [List.lookup_cons,List.lookup_cons]
      by_cases same : name = g.1
      · have elsewhere : name ≠ childName := fun equal => different (same.symm.trans equal)
        rw [same] at elsewhere
        simp [same,elsewhere]
      · have other : (name == g.1) = false := by simpa using same
        simp only [other]
        exact ih

/-- A group together with more entries. -/
def extended (group : Option (Defined P)) (more : Defined P) : Option (Defined P) :=
  if more = [] then group else some (group.getD [] ++ more)

theorem lookup_foldl (m : Defined P) (path : Path) (result : Groups P) (name : Path) :
    (m.foldl (childrenStep path) result).lookup name = extended (result.lookup name) (descendants m path name) := by
  classical
  induction m generalizing result with
  | nil => simp [descendants,extended]
  | cons kv m ih =>
    rw [List.foldl_cons,ih,childrenStep]
    by_cases starts : path.isPrefixOf kv.1
    · rw [if_pos starts,lookup_addChild]
      by_cases same : name = childNameOf path kv.1
      · have own : descendants (kv :: m) path name = kv :: descendants m path name := by simp [descendants,starts,same]
        rw [if_pos same,own]
        unfold extended
        split <;> simp_all
      · have other : descendants (kv :: m) path name = descendants m path name := by
          simp [descendants,starts,Ne.symm same]
        rw [if_neg same,other]
    · have other : descendants (kv :: m) path name = descendants m path name := by simp [descendants,starts]
      rw [if_neg starts,other]

theorem lookup_childrenWithPrefix (m : Defined P) (path name : Path) :
    (childrenWithPrefix m path).lookup name =
      if descendants m path name = [] then none else some (descendants m path name) := by
  rw [childrenWithPrefix,lookup_foldl]
  rfl

/-- The path of a node below the root. -/
def pathOf (components : List Path) : Path := dot ++ components.flatMap (slash :: ·)

theorem pathOf_concat (pre : List Path) (c : Path) : pathOf (pre ++ [c]) = pathOf pre ++ [slash] ++ c := by
  simp [pathOf]

theorem childNameOf_pathOf (pre : List Path) {c : Path} (clean : slash ∉ c) (cs : List Path) :
    childNameOf (pathOf pre ++ [slash]) (pathOf (pre ++ c :: cs)) = c := by
  have split : pathOf (pre ++ c :: cs) = (pathOf pre ++ [slash]) ++ (c ++ cs.flatMap (slash :: ·)) := by simp [pathOf]
  rw [childNameOf,split,List.drop_left]
  cases cs with
  | nil => simp [List.splitOn_eq_singleton clean]
  | cons d cs =>
    rw [List.flatMap_cons,List.cons_append,List.splitOn_append_cons_self_of_not_mem clean]
    rfl

/-- All that a child's descendants define below it, the whole map defines too. -/
theorem lookup_descendants (m : Defined P) (pre : List Path) {c : Path} (clean : slash ∉ c) (cs : List Path) :
    (descendants m (pathOf pre ++ [slash]) c).lookup (pathOf (pre ++ c :: cs)) = m.lookup (pathOf (pre ++ c :: cs)) := by
  have starts : (pathOf pre ++ [slash]).isPrefixOf (pathOf (pre ++ c :: cs)) = true := by
    rw [List.isPrefixOf_iff_prefix]
    exact ⟨c ++ cs.flatMap (slash :: ·),by simp [pathOf]⟩
  rw [descendants,lookup_filter m (fun k => (pathOf pre ++ [slash]).isPrefixOf k && childNameOf (pathOf pre ++ [slash]) k == c)]
  simp [starts,childNameOf_pathOf pre clean]

/-- What the nearest definition at or above a path is, going down from the node at `pre`. -/
def nearest (m : Defined P) (pre : List Path) (inherited : Option P) : List Path → Option P
  | [] => (m.lookup (pathOf pre)).or inherited
  | c :: cs => nearest m (pre ++ [c]) ((m.lookup (pathOf pre)).or inherited) cs

/-- A component that is a name, as opposed to the current directory. -/
def Named (c : Path) : Prop := c ≠ [] ∧ c ≠ dot ∧ slash ∉ c

theorem childNamed_leaf (e : Option P) (cs : List Path) (named : ∀ c ∈ cs, Named c) :
    cs.foldl Tree.childNamed (.node e true []) = .node e true [] := by
  induction cs with
  | nil => rfl
  | cons c cs ih =>
    have own := named c (by simp)
    have same : (Tree.node e true [] : Tree P).childNamed c = .node e true [] := by
      simp [Tree.childNamed,own.1,own.2.1,Tree.children,Tree.inherited]
    rw [List.foldl_cons,same]
    exact ih fun d member => named d (by simp [member])

theorem nearest_undefined {m : Defined P} {pre : List Path} {e : Option P} {cs : List Path}
    (undefined : ∀ k, m.lookup (pathOf (pre ++ cs.take k)) = none) : nearest m pre e cs = e := by
  induction cs generalizing pre with
  | nil =>
    have own := undefined 0
    simp only [List.take_nil,List.append_nil] at own
    simp [nearest,own]
  | cons c cs ih =>
    have own := undefined 0
    simp only [List.take_zero,List.append_nil] at own
    rw [nearest,own]
    refine ih fun k => ?_
    have next := undefined (k + 1)
    rwa [List.take_succ_cons,← List.singleton_append,← List.append_assoc] at next

/-- Below the defined part a node stands for all names. -/
theorem childNamed_missing {t : Tree P} {c : Path} (named : Named c) (missing : t.children.lookup c = none) :
    t.childNamed c = .node t.effective true [] := by
  rw [Tree.childNamed,if_neg (not_or.mpr ⟨named.2.1,named.1⟩),missing]
  dsimp only
  split
  next reused =>
    cases t with
    | node effective inherited children =>
      have none : children = [] := List.length_eq_zero_iff.mp reused.1
      have above : inherited = true := reused.2
      rw [none,above]
      rfl
  next => rfl

theorem childNamed_found {t ch : Tree P} {c : Path} (named : Named c) (found : t.children.lookup c = some ch) :
    t.childNamed c = ch := by
  rw [Tree.childNamed,if_neg (not_or.mpr ⟨named.2.1,named.1⟩),found]

/-- Names lead from a node of the tree to the nearest definition. The descendants that the node
was built from have to define what the whole map does at and below it. -/
theorem foldl_childNamed (m : Defined P) {cs : List Path} (named : ∀ c ∈ cs, Named c) {pre : List Path} {d : Defined P}
    (agrees : ∀ below, d.lookup (pathOf (pre ++ below)) = m.lookup (pathOf (pre ++ below))) (inherited : Option P) :
    (cs.foldl Tree.childNamed (buildTreeNode d (pathOf pre) inherited)).effective = nearest m pre inherited cs ∧
      (cs.foldl Tree.childNamed (buildTreeNode d (pathOf pre) inherited)).inherited = (m.lookup (pathOf (pre ++ cs))).isNone := by
  induction cs generalizing pre d inherited with
  | nil =>
    have own := agrees []
    simp only [List.append_nil] at own
    rw [List.foldl_nil,buildTreeNode_eq,own,List.append_nil]
    exact ⟨rfl,rfl⟩
  | cons c cs ih =>
    have name := named c (by simp)
    have own : d.lookup (pathOf pre) = m.lookup (pathOf pre) := by simpa using agrees []
    have children : (buildTreeNode d (pathOf pre) inherited).children.lookup c =
        ((childrenWithPrefix d (pathOf pre ++ [slash])).lookup c).map fun group =>
          buildTreeNode group (pathOf pre ++ [slash] ++ c) ((d.lookup (pathOf pre)).or inherited) := by
      rw [buildTreeNode_eq]
      exact lookup_map _ (fun childName group =>
        buildTreeNode group (pathOf pre ++ [slash] ++ childName) ((d.lookup (pathOf pre)).or inherited)) c
    have effective : (buildTreeNode d (pathOf pre) inherited).effective = (m.lookup (pathOf pre)).or inherited := by
      rw [buildTreeNode_eq,own]
      rfl
    have below (rest : List Path) : (descendants d (pathOf pre ++ [slash]) c).lookup (pathOf (pre ++ c :: rest)) =
        m.lookup (pathOf (pre ++ c :: rest)) := (lookup_descendants d pre name.2.2 rest).trans (agrees (c :: rest))
    rw [lookup_childrenWithPrefix] at children
    rw [List.foldl_cons,nearest]
    by_cases none : descendants d (pathOf pre ++ [slash]) c = []
    · rw [if_pos none] at children
      rw [none] at below
      rw [childNamed_missing name children,childNamed_leaf _ cs fun c' member => named c' (by simp [member]),← below]
      refine ⟨?_,rfl⟩
      rw [nearest_undefined fun k => ?_]
      · exact effective
      · rw [List.append_assoc,List.singleton_append,← below]
        rfl
    · rw [if_neg none] at children
      rw [childNamed_found name children,← pathOf_concat,own]
      have deeper : ∀ rest, (descendants d (pathOf pre ++ [slash]) c).lookup (pathOf (pre ++ [c] ++ rest)) =
          m.lookup (pathOf (pre ++ [c] ++ rest)) := fun rest => by
        rw [List.append_assoc,List.singleton_append]
        exact below rest
      have next := ih (fun c' member => named c' (by simp [member])) deeper
        ((m.lookup (pathOf pre)).or inherited)
      rwa [List.append_assoc,List.singleton_append] at next

/-- The names in a path. -/
def components (p : Path) : List Path := (p.splitOn slash).filter fun c => c ≠ [] ∧ c ≠ dot

theorem not_mem_splitOn (p : Path) : ∀ c ∈ p.splitOn slash, slash ∉ c := by
  induction p with
  | nil =>
    intro c member
    simp only [List.splitOn_nil,List.mem_singleton] at member
    simp [member]
  | cons b p ih =>
    intro c member
    rw [List.splitOn_cons_eq_if_modifyHead] at member
    split at member
    next =>
      rcases List.mem_cons.mp member with rfl | inside
      · simp
      · exact ih c inside
    next other =>
      cases parts : p.splitOn slash with
      | nil => exact absurd parts (List.splitOn_ne_nil _ _)
      | cons first rest =>
        rw [parts,List.modifyHead_cons] at member
        rcases List.mem_cons.mp member with rfl | inside
        · have fresh := ih first (by simp [parts])
          intro here
          rcases List.mem_cons.mp here with same | inside
          · exact other (by rw [← same]; exact beq_self_eq_true _)
          · exact fresh inside
        · exact ih c (by simp [parts,inside])

theorem components_named (p : Path) : ∀ c ∈ components p, Named c := by
  intro c member
  obtain ⟨part,plain⟩ := List.mem_filter.mp member
  have proper : c ≠ [] ∧ c ≠ dot := by simpa using plain
  exact ⟨proper.1,proper.2,not_mem_splitOn p c part⟩

theorem components_append (p q : Path) : components (p ++ [slash] ++ q) = components p ++ components q := by
  rw [components,List.append_assoc,List.singleton_append,List.splitOn_append_cons_self,List.filter_append]
  rfl

theorem splitOn_joined (c : Path) (cs : List Path) (clean : slash ∉ c) (named : ∀ d ∈ cs, Named d) :
    (c ++ cs.flatMap (slash :: ·)).splitOn slash = c :: cs := by
  induction cs generalizing c with
  | nil => simp [List.splitOn_eq_singleton clean]
  | cons d cs ih =>
    rw [List.flatMap_cons,List.cons_append,List.splitOn_append_cons_self_of_not_mem clean,
      ih d (named d (by simp)).2.2 fun e member => named e (by simp [member])]

theorem components_pathOf {cs : List Path} (named : ∀ c ∈ cs, Named c) : components (pathOf cs) = cs := by
  rw [components,pathOf,splitOn_joined dot cs (by decide) named,List.filter_cons_of_neg (by simp),List.filter_eq_self]
  intro c member
  simpa using ⟨(named c member).1,(named c member).2.1⟩

theorem childNamed_skips (t : Tree P) {c : Path} (skipped : ¬(c ≠ [] ∧ c ≠ dot)) : t.childNamed c = t := by
  rw [Tree.childNamed,if_pos (by tauto)]

/-- A path is followed name by name. -/
theorem Child_eq (t : Tree P) (p : Path) : Tree.Child (some t) p = some ((components p).foldl Tree.childNamed t) := by
  have skips (parts : List Path) (t : Tree P) :
      parts.foldl Tree.childNamed t = (parts.filter fun c => c ≠ [] ∧ c ≠ dot).foldl Tree.childNamed t := by
    induction parts generalizing t with
    | nil => rfl
    | cons c parts ih =>
      rw [List.foldl_cons,ih,List.filter_cons]
      split
      next => rfl
      next skipped => rw [childNamed_skips t (by simpa using skipped)]
  rw [components,← skips]
  unfold Tree.Child
  dsimp only
  split
  next single =>
    obtain ⟨c,parts⟩ := List.length_eq_one_iff.mp single
    have whole := (List.intercalate_splitOn slash : [slash].intercalate (p.splitOn slash) = p)
    rw [parts] at whole ⊢
    have same : c = p := by simpa using whole
    rw [same]
    rfl
  next => rfl

/-- The prefix of the path where the nearest definition is, if there is one. -/
theorem nearest_cases (m : Defined P) (pre : List Path) (e : Option P) (cs : List Path) :
    (∃ k v, k ≤ cs.length ∧ m.lookup (pathOf (pre ++ cs.take k)) = some v ∧ nearest m pre e cs = some v ∧
      ∀ j, k < j → j ≤ cs.length → m.lookup (pathOf (pre ++ cs.take j)) = none) ∨
    ((∀ k, m.lookup (pathOf (pre ++ cs.take k)) = none) ∧ nearest m pre e cs = e) := by
  induction cs generalizing pre e with
  | nil =>
    cases own : m.lookup (pathOf pre) with
    | some v => exact .inl ⟨0,v,le_refl _,by simpa using own,by simp [nearest,own],fun j above below => by simp at below; omega⟩
    | none => exact .inr ⟨by simp [own],by simp [nearest,own]⟩
  | cons c cs ih =>
    have shift (k : Nat) : pre ++ (c :: cs).take (k + 1) = pre ++ [c] ++ cs.take k := by simp
    rcases ih (pre ++ [c]) ((m.lookup (pathOf pre)).or e) with ⟨k,v,inside,found,value,later⟩ | ⟨undefined,value⟩
    · refine .inl ⟨k + 1,v,by simpa using inside,by rw [shift]; exact found,value,fun j above below => ?_⟩
      obtain ⟨j,rfl⟩ := Nat.exists_eq_succ_of_ne_zero (by omega : j ≠ 0)
      rw [Nat.succ_eq_add_one,shift]
      exact later j (by omega) (by simpa using below)
    · have rest (j : Nat) (above : 0 < j) : m.lookup (pathOf (pre ++ (c :: cs).take j)) = none := by
        obtain ⟨j,rfl⟩ := Nat.exists_eq_succ_of_ne_zero (by omega : j ≠ 0)
        rw [Nat.succ_eq_add_one,shift]
        exact undefined j
      cases own : m.lookup (pathOf pre) with
      | some v => exact .inl ⟨0,v,by simp,by simpa using own,value.trans (by rw [own]; rfl),fun j above _ => rest j above⟩
      | none =>
        refine .inr ⟨fun k => ?_,value.trans (by rw [own]; rfl)⟩
        rcases Nat.eq_zero_or_pos k with rfl | above
        · simpa using own
        · exact rest k above

theorem nearest_defined {m : Defined P} {pre : List Path} (e : Option P) {cs : List Path} {v : P}
    (found : m.lookup (pathOf (pre ++ cs)) = some v) : nearest m pre e cs = some v := by
  rcases nearest_cases m pre e cs with ⟨k,w,inside,own,value,later⟩ | ⟨undefined,value⟩
  · have last : k = cs.length := by
      by_contra before
      have none := later cs.length (by omega) (le_refl _)
      rw [List.take_length,found] at none
      contradiction
    rw [last,List.take_length,found] at own
    rw [value,← own]
  · have none := undefined cs.length
    rw [List.take_length,found] at none
    contradiction

/-- Paths are `.` or `./a/b`, with no name empty or a dot. -/
def WellFormed (m : Defined P) : Prop := ∀ d v, m.lookup d = some v → ∃ cs, (∀ c ∈ cs, Named c) ∧ d = pathOf cs

/-- The definition at the longest path that is a prefix of `p` name by name, or else the default. -/
def IsNearest (m : Defined P) (defaultPolicy : Option P) (p : Path) (e : Option P) : Prop :=
  (∃ d v, m.lookup d = some v ∧ components d <+: components p ∧ e = some v ∧
    ∀ d' v', m.lookup d' = some v' → components d' <+: components p → (components d').length ≤ (components d).length) ∨
  ((∀ d v, m.lookup d = some v → ¬components d <+: components p) ∧ e = defaultPolicy)

theorem IsNearest_nearest {m : Defined P} (wellFormed : WellFormed m) (defaultPolicy : Option P) (p : Path) :
    IsNearest m defaultPolicy p (nearest m [] defaultPolicy (components p)) := by
  have named := components_named p
  -- A defined prefix of the path is what the lookup of as many names finds.
  have prefixed (d : Path) (v : P) (found : m.lookup d = some v) (above : components d <+: components p) :
      m.lookup (pathOf ((components p).take (components d).length)) = some v := by
    obtain ⟨cs,own,rfl⟩ := wellFormed d v found
    rw [components_pathOf own] at above ⊢
    rwa [← List.prefix_iff_eq_take.mp above]
  rcases nearest_cases m [] defaultPolicy (components p) with ⟨k,v,inside,found,value,later⟩ | ⟨undefined,value⟩
  · simp only [List.nil_append] at found later
    have parts : components (pathOf ((components p).take k)) = (components p).take k :=
      components_pathOf fun c member => named c (List.mem_of_mem_take member)
    refine .inl ⟨_,v,found,by rw [parts]; exact List.take_prefix _ _,value,fun d' v' defined above => ?_⟩
    rw [parts,List.length_take,Nat.min_eq_left inside]
    by_contra longer
    have none := later (components d').length (by omega) above.length_le
    rw [prefixed d' v' defined above] at none
    contradiction
  · simp only [List.nil_append] at undefined
    refine .inr ⟨fun d v defined above => ?_,value⟩
    have none := undefined (components d).length
    rw [prefixed d v defined above] at none
    contradiction

/-- Lookup in the tree is by nearest ancestor. -/
theorem BuildTree_Child {m : Defined P} (wellFormed : WellFormed m) (defaultPolicy : Option P) (DefaultPolicy : P)
    (p q : Path) :
    IsNearest m defaultPolicy p (Tree.EffectivePolicy DefaultPolicy (Tree.Child (some (BuildTree m defaultPolicy)) p)) ∧
      (Tree.DefinedPolicy (Tree.Child (some (BuildTree m defaultPolicy)) p) ≠ none ↔
        ∃ d v, m.lookup d = some v ∧ components d = components p) ∧
      Tree.Child (some (BuildTree m defaultPolicy)) (p ++ [slash] ++ q) =
        Tree.Child (Tree.Child (some (BuildTree m defaultPolicy)) p) q := by
  obtain ⟨effective,inherited⟩ := @foldl_childNamed P m _ (components_named p) [] m (fun _ => rfl) defaultPolicy
  have root : BuildTree m defaultPolicy = buildTreeNode m (pathOf []) defaultPolicy := rfl
  rw [root,Child_eq,Child_eq,Child_eq,components_append,List.foldl_append]
  refine ⟨?nearest,?defined,rfl⟩
  case nearest =>
    rw [Tree.EffectivePolicy]
    exact effective ▸ IsNearest_nearest wellFormed defaultPolicy p
  case defined =>
    rw [List.nil_append] at inherited
    unfold Tree.DefinedPolicy
    dsimp only
    rw [inherited,effective]
    cases found : m.lookup (pathOf (components p)) with
    | some v =>
      rw [@nearest_defined P m [] defaultPolicy _ _ (by rw [List.nil_append]; exact found)]
      exact ⟨fun _ => ⟨_,v,found,components_pathOf (components_named p)⟩,fun _ => by simp⟩
    | none =>
      refine ⟨fun defined => absurd rfl defined,?_⟩
      rintro ⟨d,v,own,same⟩
      obtain ⟨cs,named,rfl⟩ := wellFormed d v own
      rw [components_pathOf named] at same
      rw [← same,own] at found
      contradiction

/-- Policies for the root, for `foo` and for `bar/baz`, told apart by numbers. -/
def sample : Defined Nat := [(dot,0),(pathOf [[102,111,111]],1),(pathOf [[98,97,114],[98,97,122]],2)]

theorem BuildTree_Child_sample :
    IsNearest sample (some 9) [102,111,111,47,120]
        (Tree.EffectivePolicy 7 (Tree.Child (some (BuildTree sample (some 9))) [102,111,111,47,120])) ∧
      (Tree.DefinedPolicy (Tree.Child (some (BuildTree sample (some 9))) [102,111,111,47,120]) ≠ none ↔
        ∃ d v, sample.lookup d = some v ∧ components d = components [102,111,111,47,120]) ∧
      Tree.Child (some (BuildTree sample (some 9))) ([102,111,111,47,120] ++ [slash] ++ [46]) =
        Tree.Child (Tree.Child (some (BuildTree sample (some 9))) [102,111,111,47,120]) [46] := by
  refine BuildTree_Child (fun d v found => ?_) (some 9) 7 _ _
  obtain ⟨before,after,split,-⟩ := List.lookup_eq_some_iff.mp found
  have member : (d,v) ∈ sample := by simp [split]
  simp only [sample,List.mem_cons,Prod.mk.injEq,List.not_mem_nil,or_false] at member
  rcases member with ⟨rfl,-⟩ | ⟨rfl,-⟩ | ⟨rfl,-⟩
  · exact ⟨[],by simp,rfl⟩
  · exact ⟨_,by simp [Named,slash,dot],rfl⟩
  · exact ⟨_,by simp [Named,slash,dot],rfl⟩

end Vbe.Policy.PolicyTree
