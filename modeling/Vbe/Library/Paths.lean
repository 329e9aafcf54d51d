import Mathlib.Data.List.Infix

/-! Paths with slashes, and the names in them. -/
namespace Vbe.Library.Paths

abbrev Path := List UInt8

def slash : UInt8 := 47

def dot : Path := [46]

def dotDot : Path := [46,46]

def rooted (p : Path) : Bool := p.head? = some slash

/-- The names that lead somewhere, and one more. -/
def follow (rooted : Bool) (names : List Path) (name : Path) : List Path :=
  if name = [] ∨ name = dot then names
  else if name = dotDot then
    match names.getLast? with
    | none => if rooted then [] else [dotDot]
    | some last => if last = dotDot then names ++ [dotDot] else names.dropLast
  else names ++ [name]

/-- The names that a path leads along. -/
def names (p : Path) : List Path := (p.splitOn slash).foldl (follow (rooted p)) []

/-- `path.Clean`. -/
def Clean (p : Path) : Path :=
  if rooted p then slash :: [slash].intercalate (names p)
  else if names p = [] then dot
  else [slash].intercalate (names p)

/-- `path.Join`, of two elements. -/
def Join (a b : Path) : Path :=
  if a = [] then if b = [] then [] else Clean b
  else Clean (a ++ slash :: b)

/-- The name of something in a directory. -/
structure Plain (name : Path) : Prop where
  clean : slash ∉ name
  some : name ≠ []
  other : name ≠ dot
  inside : name ≠ dotDot

/-- Names that lead nowhere else than they say: some directories up first, and none of them from the root. -/
def Settled (rooted : Bool) (names : List Path) : Prop :=
  ∃ ups rest, names = List.replicate ups dotDot ++ rest ∧ (∀ n ∈ rest, Plain n) ∧ (rooted = true → ups = 0)

section Names
variable {r : Bool} {l : List Path} {name p : Path}

theorem follow_plain (plain : Plain name) (l : List Path) : follow r l name = l ++ [name] := by
  rw [follow,if_neg (not_or.mpr ⟨plain.some,plain.other⟩),if_neg plain.inside]

theorem follow_nil (l : List Path) : follow r l [] = l := by rw [follow,if_pos (.inl rfl)]

theorem dotDot_not_plain : ¬ Plain dotDot := fun plain => plain.inside rfl

theorem Settled.follow (settled : Settled r l) (clean : slash ∉ name) : Settled r (follow r l name) := by
  obtain ⟨ups,rest,rfl,plain,root⟩ := settled
  rw [Paths.follow]
  split
  next => exact ⟨ups,rest,rfl,plain,root⟩
  next named =>
    obtain ⟨some,other⟩ := not_or.mp named
    split
    next =>
      rcases List.eq_nil_or_concat' rest with rfl | ⟨front,last,rfl⟩
      · rw [List.append_nil]
        cases ups with
        | zero =>
          cases r with
          | true => exact ⟨0,[],rfl,plain,fun _ => rfl⟩
          | false => exact ⟨1,[],rfl,plain,fun rooted => absurd rooted Bool.false_ne_true⟩
        | succ ups =>
          have unrooted : r ≠ true := fun rooted => absurd (root rooted) (Nat.succ_ne_zero _)
          rw [List.replicate_succ',List.getLast?_concat]
          simp only [if_true]
          refine ⟨ups + 2,[],?_,plain,fun rooted => absurd rooted unrooted⟩
          rw [List.append_nil,List.replicate_succ',List.replicate_succ']
      · have last_plain := plain last (by simp)
        rw [← List.append_assoc,List.getLast?_concat]
        simp only [if_neg last_plain.inside,List.dropLast_concat]
        exact ⟨ups,front,rfl,fun n member => plain n (by simp [member]),root⟩
    next inside =>
      refine ⟨ups,rest ++ [name],by rw [List.append_assoc],fun n member => ?_,root⟩
      rcases List.mem_append.mp member with before | now
      · exact plain n before
      · obtain rfl := List.mem_singleton.mp now
        exact ⟨clean,some,other,inside⟩

theorem Settled.foldl (settled : Settled r l) {news : List Path} (clean : ∀ n ∈ news, slash ∉ n) :
    Settled r (news.foldl (Paths.follow r) l) := by
  induction news generalizing l with
  | nil => exact settled
  | cons n news ih => exact ih (settled.follow (clean n (by simp))) fun m member => clean m (by simp [member])

theorem foldl_plain {news : List Path} (plain : ∀ n ∈ news, Plain n) (l : List Path) : news.foldl (follow r) l = l ++ news := by
  induction news generalizing l with
  | nil => simp
  | cons n news ih =>
    rw [List.foldl_cons,follow_plain (plain n (by simp)),ih fun m member => plain m (by simp [member])]
    simp

theorem foldl_ups (ups : Nat) : (List.replicate ups dotDot).foldl (follow false) [] = List.replicate ups dotDot := by
  induction ups with
  | zero => rfl
  | succ ups ih =>
    rw [List.replicate_succ',List.foldl_append,ih]
    cases ups with
    | zero => rfl
    | succ ups =>
      rw [List.replicate_succ',List.foldl_cons,List.foldl_nil,follow,List.getLast?_concat]
      simp [dotDot,dot]

/-- Settled names are followed as they are. -/
theorem Settled.fixed (settled : Settled r l) : l.foldl (Paths.follow r) [] = l := by
  obtain ⟨ups,rest,rfl,plain,root⟩ := settled
  rw [List.foldl_append,foldl_plain plain]
  cases r with
  | true =>
    obtain rfl := root rfl
    rfl
  | false => rw [foldl_ups]

theorem not_mem_splitOn (p : Path) : ∀ n ∈ p.splitOn slash, slash ∉ n := by
  induction p with
  | nil => simp
  | cons b p ih =>
    obtain ⟨first,rest,parts⟩ := List.exists_cons_of_ne_nil (List.splitOn_ne_nil slash p)
    rw [List.splitOn_cons_eq_if_modifyHead]
    split
    next => simpa using ih
    next other =>
      rw [parts] at ih ⊢
      intro n member
      rcases List.mem_cons.mp member with rfl | later
      · have fresh := ih first List.mem_cons_self
        simpa [fresh] using fun same => other (by simp [same])
      · exact ih n (List.mem_cons_of_mem _ later)

theorem settled_names (p : Path) : Settled (rooted p) (names p) :=
  Settled.foldl ⟨0,[],rfl,by simp,fun _ => rfl⟩ (not_mem_splitOn p)

theorem Settled.clean (settled : Settled r l) : ∀ n ∈ l, slash ∉ n ∧ n ≠ [] := by
  obtain ⟨ups,rest,rfl,plain,_⟩ := settled
  intro n member
  rcases List.mem_append.mp member with up | here
  · rw [List.eq_of_mem_replicate up]
    decide
  · exact ⟨(plain n here).clean,(plain n here).some⟩

theorem splitOn_joined (settled : Settled r l) (some : l ≠ []) : ([slash].intercalate l).splitOn slash = l :=
  List.splitOn_intercalate slash (fun n member => (settled.clean n member).1) some

theorem rooted_joined (settled : Settled r l) : rooted ([slash].intercalate l) = false := by
  cases l with
  | nil => rfl
  | cons n l =>
    obtain ⟨clean,some⟩ := settled.clean n List.mem_cons_self
    obtain ⟨c,n,rfl⟩ := List.exists_cons_of_ne_nil some
    have first : c ≠ slash := fun same => clean (by simp [same])
    cases l <;> simp [rooted,List.intercalate,first]

theorem rooted_cons (p : Path) : rooted (slash :: p) = true := by simp [rooted]

theorem splitOn_rooted (p : Path) : (slash :: p).splitOn slash = [] :: p.splitOn slash := by
  rw [List.splitOn_cons_eq_if_modifyHead,if_pos (beq_self_eq_true _)]

/-- A path still leads along the same names when it is cleaned. -/
theorem names_Clean (p : Path) : names (Clean p) = names p := by
  have settled := settled_names p
  rw [Clean]
  split
  next root =>
    rw [root] at settled
    rw [names,rooted_cons,splitOn_rooted,List.foldl_cons,follow_nil]
    by_cases none : names p = []
    · rw [none]
      rfl
    · rw [splitOn_joined settled none,settled.fixed]
  next root =>
    have root : rooted p = false := by simpa using root
    rw [root] at settled
    split
    next none =>
      rw [none]
      rfl
    next some => rw [names,rooted_joined settled,splitOn_joined settled some,settled.fixed]

theorem rooted_append (some : p ≠ []) (q : Path) : rooted (p ++ q) = rooted p := by
  obtain ⟨c,p,rfl⟩ := List.exists_cons_of_ne_nil some
  rfl

theorem names_append (p : Path) (clean : slash ∉ name) (plain : p = [] → Plain name) :
    names (p ++ slash :: name) = follow (rooted p) (names p) name := by
  by_cases none : p = []
  · subst none
    rw [List.nil_append,names,rooted_cons,splitOn_rooted,List.foldl_cons,follow_nil,List.splitOn_eq_singleton clean,List.foldl_cons,
      List.foldl_nil,follow_plain (plain rfl),follow_plain (plain rfl)]
    rfl
  · rw [names,rooted_append none,List.splitOn_append_cons_self,List.foldl_append,List.splitOn_eq_singleton clean]
    rfl

/-- Something in the directory of a path. -/
theorem names_child (plain : Plain name) (p : Path) : names (p ++ slash :: name) = names p ++ [name] := by
  rw [names_append p plain.clean fun _ => plain,follow_plain plain]

theorem names_Join (plain : Plain name) (p : Path) : names (Join p name) = names p ++ [name] := by
  rw [Join]
  split
  next none =>
    subst none
    rw [if_neg plain.some,names_Clean]
    have alone : names name = [name] := by
      rw [names,List.splitOn_eq_singleton plain.clean,List.foldl_cons,List.foldl_nil,follow_plain plain,List.nil_append]
    rw [alone]
    rfl
  next => rw [names_Clean,names_child plain]

theorem names_Join_nil (p : Path) : names (Join p []) = names p := by
  rw [Join]
  split
  next none =>
    subst none
    rfl
  next some => rw [names_Clean,names_append p (by simp) fun none => absurd none some,follow_nil]

end Names

end Vbe.Library.Paths
