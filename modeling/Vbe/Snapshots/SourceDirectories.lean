import Mathlib.Data.List.Sort
import Mathlib.Data.List.Lex
import Mathlib.Data.List.Induction
import Mathlib.Data.List.Dedup
import Mathlib.Data.List.Perm.Basic
import Mathlib.Data.List.Perm.Subperm
import Mathlib.Data.Char
import Mathlib.Order.Lattice

/-! The directories that stand for the sources of one user and host. Sources with similar paths get names that also differ where case does
not matter. -/
namespace Vbe.Snapshots.Sources

section Model

abbrev Text := List Char

structure SourceInfo where
  Host : Text
  UserName : Text
  Path : Text
deriving DecidableEq

/-- The rest after every occurrence of a pattern of two characters has been replaced by one. -/
def replacePair (a b c : Char) : Text → Text
  | x :: y :: rest => if x = a ∧ y = b then c :: replacePair a b c rest else x :: replacePair a b c (y :: rest)
  | rest => rest

def replaceChar (a c : Char) (p : Text) : Text := p.map fun x => if x = a then c else x

def trimRight (a : Char) (p : Text) : Text := (p.reverse.dropWhile (· = a)).reverse

def root : Text := ['_','_','r','o','o','t']

def safeNameForMount (p : Text) : Text :=
  if p = ['/'] then root
  else
    let p := replacePair ':' '/' '_' p
    let p := replacePair ':' '\\' '_' p
    let p := p.dropWhile (· = '/')
    let p := replaceChar '/' '_' p
    let p := replaceChar '\\' '_' p
    trimRight ':' (trimRight '_' p)

/-- The map from paths to their safe names, in the order in which a loop goes through it. -/
abbrev Names := List (Text × Text)

/-- The path is put to those with the same safe name. -/
def addOriginal (l name : Text) : List (Text × List Text) → List (Text × List Text)
  | [] => [(l,[name])]
  | (l',names) :: rest => if l' = l then (l',names ++ [name]) :: rest else (l',names) :: addOriginal l name rest

/-- How the loops of one call go through maps. -/
structure Order where
  visit {α : Type} : List α → List α
  perm : ∀ {α : Type} (l : List α), (visit l).Perm l

variable (toLower : Char → Char)

def safe2original (m : Names) : List (Text × List Text) :=
  m.foldl (fun groups e => addOriginal (e.2.map toLower) e.1 groups) []

def lookup (m : Names) (name : Text) : Text := (m.lookup name).getD []

/-- ` (2)` and so on. -/
def suffix (i : Nat) : Text := if i > 0 then [' ','('] ++ Nat.toDigits 10 (i + 1) ++ [')'] else []

/-- The new names of the paths of a group. -/
def number (m : Names) (originals : List Text) : Names :=
  match originals with
  | [orig] => [(orig,lookup m orig)]
  | _ => (originals.mergeSort fun a b => a ≤ b).zipIdx.map fun (orig,i) => (orig,lookup m orig ++ suffix i)

/-- One go through the groups: the result, and whether one of them has several paths. -/
def attempt (order : Order) (m : Names) : Names × Bool :=
  let groups := safe2original toLower (order.visit m)
  ((order.visit groups).flatMap fun g => number m g.2,groups.any fun g => g.2.length ≠ 1)

/-- `none` where that many calls are not enough. -/
def disambiguateSafeNames (orders : Nat → Order) : Nat → Names → Option Names
  | 0, _ => none
  | calls + 1, m =>
    match attempt toLower (orders calls) m with
    | (result,false) => some result
    | (result,true) => disambiguateSafeNames orders calls result

/-- A map of the safe names of some keys. -/
def safeNames (keys : List Text) : Names := keys.dedup.map fun key => (key,safeNameForMount key)

def SourceInfo.userHost (src : SourceInfo) : Text := src.UserName ++ '@' :: src.Host

structure SourceSnapshots where
  src : SourceInfo
  name : Text
deriving DecidableEq

structure SourceDirectories where
  userHost : Text
  name : Text
deriving DecidableEq

/-- The entries for the sources that are listed. -/
def SourceDirectories.Iterate (orders : Nat → Order) (calls : Nat) (s : SourceDirectories) (sources0 : List SourceInfo) :
    Option (List SourceSnapshots) :=
  let sources := sources0.filter fun src => src.userHost = s.userHost
  (disambiguateSafeNames toLower orders calls (safeNames (sources.map SourceInfo.Path))).map fun name2safe =>
    sources.map fun src => ⟨src,lookup name2safe src.Path⟩

def AllSources.Iterate (orders : Nat → Order) (order : Order) (calls : Nat) (srcs : List SourceInfo) :
    Option (List SourceDirectories) :=
  let users := (srcs.map SourceInfo.userHost).dedup
  (disambiguateSafeNames toLower orders calls (safeNames users)).map fun name2safe =>
    (order.visit users).map fun u => ⟨u,lookup name2safe u⟩

/-- The first entry with a name. -/
def SourceDirectories.Child (entries : List SourceSnapshots) (name : Text) : Option SourceSnapshots :=
  entries.find? fun e => e.name = name

def AllSources.Child (entries : List SourceDirectories) (name : Text) : Option SourceDirectories :=
  entries.find? fun e => e.name = name

end Model

section Groups
variable {toLower : Char → Char} {m : Names} {l name : Text} {groups : List (Text × List Text)}

theorem addOriginal_keys : (addOriginal l name groups).map Prod.fst =
    if l ∈ groups.map Prod.fst then groups.map Prod.fst else groups.map Prod.fst ++ [l] := by
  induction groups with
  | nil => rfl
  | cons g groups ih =>
    rw [addOriginal]
    split
    next same => simp [same]
    next other =>
      rw [List.map_cons,ih,List.map_cons]
      split
      next inside => simp [inside]
      next outside => simp [Ne.symm other,outside]

theorem addOriginal_perm : ((addOriginal l name groups).flatMap Prod.snd).Perm (name :: groups.flatMap Prod.snd) := by
  induction groups with
  | nil => exact .refl _
  | cons g groups ih =>
    rw [addOriginal]
    split
    next =>
      simp only [List.flatMap_cons,List.append_assoc]
      exact List.perm_middle
    next =>
      simp only [List.flatMap_cons]
      exact (ih.append_left _).trans List.perm_middle

/-- The group of a name has one more path, and the others are the same. -/
theorem mem_addOriginal (nodup : (groups.map Prod.fst).Nodup) {g : Text × List Text} (member : g ∈ addOriginal l name groups) :
    (g ∈ groups ∧ g.1 ≠ l) ∨ (∃ names, (l,names) ∈ groups ∧ g = (l,names ++ [name])) ∨ (l ∉ groups.map Prod.fst ∧ g = (l,[name])) := by
  induction groups with
  | nil => exact .inr (.inr ⟨List.not_mem_nil,List.mem_singleton.mp member⟩)
  | cons h groups ih =>
    obtain ⟨l',names⟩ := h
    obtain ⟨fresh,nodup⟩ := List.nodup_cons.mp nodup
    rw [addOriginal] at member
    split at member
    next same =>
      rcases List.mem_cons.mp member with rfl | later
      · exact .inr (.inl ⟨names,same ▸ List.mem_cons_self,by rw [same]⟩)
      · refine .inl ⟨List.mem_cons_of_mem _ later,fun same' => fresh ?_⟩
        have inside : g.1 ∈ groups.map Prod.fst := List.mem_map.mpr ⟨g,later,rfl⟩
        rwa [same',← same] at inside
    next other =>
      rcases List.mem_cons.mp member with rfl | later
      · exact .inl ⟨List.mem_cons_self,other⟩
      · rcases ih nodup later with ⟨old,different⟩ | ⟨names,old,same⟩ | ⟨new,same⟩
        · exact .inl ⟨List.mem_cons_of_mem _ old,different⟩
        · exact .inr (.inl ⟨names,List.mem_cons_of_mem _ old,same⟩)
        · refine .inr (.inr ⟨fun inside => ?_,same⟩)
          rcases List.mem_cons.mp inside with here | there
          · exact other here.symm
          · exact new there

/-- The paths with a safe name. -/
def originals (toLower : Char → Char) (m : Names) (l : Text) : List Text :=
  (m.filter fun e => e.2.map toLower = l).map Prod.fst

theorem originals_append (m m' : Names) (l : Text) :
    originals toLower (m ++ m') l = originals toLower m l ++ originals toLower m' l := by
  rw [originals,List.filter_append,List.map_append]
  rfl

theorem mem_originals {l name : Text} : name ∈ originals toLower m l ↔ ∃ e ∈ m, e.2.map toLower = l ∧ e.1 = name := by
  simp only [originals,List.mem_map,List.mem_filter,decide_eq_true_eq]
  exact exists_congr fun e => ⟨fun ⟨⟨inside,same⟩,path⟩ => ⟨inside,same,path⟩,fun ⟨inside,same,path⟩ => ⟨⟨inside,same⟩,path⟩⟩

/-- Each group has the paths of one safe name. -/
structure Grouped (toLower : Char → Char) (m : Names) (groups : List (Text × List Text)) : Prop where
  nodup : (groups.map Prod.fst).Nodup
  all : (groups.flatMap Prod.snd).Perm (m.map Prod.fst)
  each : ∀ g ∈ groups, g.2 = originals toLower m g.1
  whole : ∀ l, l ∈ groups.map Prod.fst ↔ ∃ e ∈ m, e.2.map toLower = l

theorem grouped (toLower : Char → Char) (m : Names) : Grouped toLower m (safe2original toLower m) := by
  induction m using List.reverseRecOn with
  | nil =>
    exact ⟨List.nodup_nil,.nil,fun g member => absurd member List.not_mem_nil,
      fun l => ⟨fun inside => absurd inside List.not_mem_nil,fun ⟨e,inside,_⟩ => absurd inside List.not_mem_nil⟩⟩
  | append_singleton m e ih =>
    have last : safe2original toLower (m ++ [e]) = addOriginal (e.2.map toLower) e.1 (safe2original toLower m) := by
      rw [safe2original,List.foldl_append]
      rfl
    have one : originals toLower [e] (e.2.map toLower) = [e.1] := by simp [originals]
    rw [last]
    refine ⟨?_,?_,fun g member => ?_,fun l => ?_⟩
    · rw [addOriginal_keys]
      split
      next => exact ih.nodup
      next outside => exact List.nodup_append.mpr ⟨ih.nodup,List.nodup_singleton _,fun a first b second same =>
          outside (List.mem_singleton.mp second ▸ same ▸ first)⟩
    · refine addOriginal_perm.trans ?_
      rw [List.map_append,List.map_singleton]
      exact (ih.all.cons _).trans (List.perm_append_singleton _ _).symm
    · rw [originals_append]
      rcases mem_addOriginal ih.nodup member with ⟨old,other⟩ | ⟨names,old,rfl⟩ | ⟨new,rfl⟩
      · rw [← ih.each g old]
        simp [originals,Ne.symm other]
      · rw [one,← ih.each _ old]
      · have none : originals toLower m (e.2.map toLower) = [] := by
          refine List.eq_nil_iff_forall_not_mem.mpr fun name inside => ?_
          obtain ⟨e',member,same,-⟩ := mem_originals.mp inside
          exact new ((ih.whole _).mpr ⟨e',member,same⟩)
        rw [one,none]
        rfl
    · have keys : l ∈ (addOriginal (e.2.map toLower) e.1 (safe2original toLower m)).map Prod.fst ↔
          l ∈ (safe2original toLower m).map Prod.fst ∨ e.2.map toLower = l := by
        rw [addOriginal_keys]
        split
        next inside => exact ⟨.inl,fun either => either.elim id fun same => same ▸ inside⟩
        next => rw [List.mem_append,List.mem_singleton,eq_comm (a := l)]
      rw [keys,ih.whole]
      simp only [List.mem_append,List.mem_singleton,or_and_right,exists_or,exists_eq_left]

/-- The order of the paths makes no difference to a group. -/
theorem originals_perm {m' : Names} (perm : m.Perm m') (l : Text) : (originals toLower m l).Perm (originals toLower m' l) :=
  (perm.filter _).map _

theorem originals_single (nodup : (m.map Prod.fst).Nodup) {e : Text × Text} (member : e ∈ m) :
    (originals toLower m (e.2.map toLower)).length = 1 ↔ ∀ e' ∈ m, e'.2.map toLower = e.2.map toLower → e' = e := by
  have inside : e.1 ∈ originals toLower m (e.2.map toLower) := mem_originals.mpr ⟨e,member,rfl,rfl⟩
  constructor
  · intro one e' member' same
    obtain ⟨only,eq⟩ := List.length_eq_one_iff.mp one
    have inside' : e'.1 ∈ originals toLower m (e.2.map toLower) := mem_originals.mpr ⟨e',member',same,rfl⟩
    rw [eq,List.mem_singleton] at inside inside'
    exact List.inj_on_of_nodup_map nodup member' member (inside'.trans inside.symm)
  · intro alone
    have distinct : (originals toLower m (e.2.map toLower)).Nodup := nodup.sublist (List.filter_sublist.map _)
    have each : ∀ name ∈ originals toLower m (e.2.map toLower), name = e.1 := fun name member' => by
      obtain ⟨e',listed,same,rfl⟩ := mem_originals.mp member'
      rw [alone e' listed same]
    match shape : originals toLower m (e.2.map toLower) with
    | [] => exact absurd (shape ▸ inside) List.not_mem_nil
    | [_] => rfl
    | first :: second :: rest =>
      rw [shape] at distinct each
      have same := (each first List.mem_cons_self).trans (each second (List.mem_cons_of_mem _ List.mem_cons_self)).symm
      exact absurd (same ▸ List.mem_cons_self) (List.nodup_cons.mp distinct).1

end Groups

section Numbers
variable {toLower : Char → Char} {m m' : Names} {l name : Text} {paths paths' : List Text}

theorem sort_congr (perm : paths.Perm paths') : (paths.mergeSort fun a b => a ≤ b) = paths'.mergeSort fun a b => a ≤ b := by
  have sorted (l : List Text) : (l.mergeSort fun a b => a ≤ b).Pairwise (· ≤ ·) := List.pairwise_mergeSort' (· ≤ ·) l
  refine List.Perm.eq_of_pairwise (fun a b _ _ below above => le_antisymm below above) (sorted _) (sorted _) ?_
  exact (List.mergeSort_perm _ _).trans (perm.trans (List.mergeSort_perm _ _).symm)

theorem suffix_eq_nil {i : Nat} : suffix i = [] ↔ i = 0 := by
  constructor
  · intro empty
    by_contra positive
    simp [suffix,Nat.pos_of_ne_zero positive] at empty
  · rintro rfl
    rfl

theorem number_sorted (m : Names) (paths : List Text) : ∃ sorted : List Text, sorted.Perm paths ∧
    number m paths = sorted.zipIdx.map fun (orig,i) => (orig,lookup m orig ++ suffix i) := by
  unfold number
  split
  next orig => exact ⟨[orig],.refl _,by simp [suffix]⟩
  next several => exact ⟨_,List.mergeSort_perm _ _,rfl⟩

theorem number_fst : ((number m paths).map Prod.fst).Perm paths := by
  obtain ⟨sorted,perm,same⟩ := number_sorted m paths
  rw [same,List.map_map]
  have first : (Prod.fst ∘ fun (e : Text × Nat) => (e.1,lookup m e.1 ++ suffix e.2)) = Prod.fst := rfl
  exact (congrArg (List.Perm · paths) ((congrArg (fun f => sorted.zipIdx.map f) first).trans (List.zipIdx_map_fst 0 sorted))).mpr perm

/-- A new name starts with the old one, and is the old one where the path is alone. -/
theorem number_of_mem {e : Text × Text} (member : e ∈ number m paths) :
    e.1 ∈ paths ∧ ∃ i, e.2 = lookup m e.1 ++ suffix i ∧ (paths.length = 1 → i = 0) := by
  obtain ⟨sorted,perm,same⟩ := number_sorted m paths
  rw [same] at member
  obtain ⟨⟨orig,i⟩,found,rfl⟩ := List.mem_map.mp member
  have place := List.mem_zipIdx_iff_getElem?.mp found
  refine ⟨perm.mem_iff.mp (List.mem_of_getElem? place),i,rfl,fun one => ?_⟩
  have below := (List.getElem?_eq_some_iff.mp place).1
  have long := perm.length_eq
  simp only at below
  omega

/-- One of the paths keeps its name. -/
theorem number_kept (exists_path : paths ≠ []) : ∃ head ∈ paths, ∀ name, (name,lookup m name) ∈ number m paths ↔ name = head := by
  obtain ⟨sorted,perm,same⟩ := number_sorted m paths
  cases sorted with
  | nil => exact absurd perm.symm.eq_nil exists_path
  | cons head rest =>
    refine ⟨head,perm.mem_iff.mp List.mem_cons_self,fun name => ?_⟩
    rw [same,List.mem_map]
    constructor
    · rintro ⟨⟨orig,i⟩,found,eq⟩
      obtain ⟨rfl,kept⟩ := Prod.mk.inj eq
      obtain rfl := suffix_eq_nil.mp (List.append_right_eq_self.mp kept)
      simpa using (List.mem_zipIdx_iff_getElem?.mp found).symm
    · rintro rfl
      exact ⟨(name,0),List.mem_zipIdx_iff_getElem?.mpr rfl,by simp [suffix]⟩

theorem number_congr (perm : paths.Perm paths') (same : ∀ name, lookup m name = lookup m' name) : number m paths = number m' paths' := by
  have looks : lookup m = lookup m' := funext same
  unfold number
  rw [looks]
  split
  next orig => rw [List.perm_singleton.mp perm.symm]
  next several =>
    split
    next orig => exact absurd (List.perm_singleton.mp perm) (several orig)
    next => rw [sort_congr perm]

theorem lookup_of_mem (nodup : (m.map Prod.fst).Nodup) {e : Text × Text} (member : e ∈ m) : lookup m e.1 = e.2 := by
  induction m with
  | nil => exact absurd member List.not_mem_nil
  | cons e' m ih =>
    obtain ⟨fresh,nodup⟩ := List.nodup_cons.mp nodup
    rw [lookup,List.lookup_cons]
    rcases List.mem_cons.mp member with rfl | later
    · rw [beq_self_eq_true]
      rfl
    · have other : e.1 ≠ e'.1 := fun same => fresh (List.mem_map.mpr ⟨e,later,same⟩)
      rw [beq_false_of_ne other]
      exact ih nodup later

theorem lookup_congr (nodup : (m.map Prod.fst).Nodup) (perm : m.Perm m') (name : Text) : lookup m name = lookup m' name := by
  by_cases inside : ∃ e ∈ m, e.1 = name
  · obtain ⟨e,member,rfl⟩ := inside
    rw [lookup_of_mem nodup member,lookup_of_mem ((perm.map _).nodup_iff.mp nodup) (perm.mem_iff.mp member)]
  · have none {m : Names} (outside : ∀ e ∈ m, e.1 ≠ name) : m.lookup name = none := by
      rw [List.lookup_eq_none_iff]
      exact fun e member => bne_iff_ne.mpr (Ne.symm (outside e member))
    push Not at inside
    rw [lookup,lookup,none inside,none fun e member => inside e (perm.mem_iff.mpr member)]

theorem eq_of_path (nodup : (m.map Prod.fst).Nodup) {e e' : Text × Text} (member : e ∈ m) (member' : e' ∈ m) (same : e.1 = e'.1) : e = e' :=
  List.inj_on_of_nodup_map nodup member member' same

end Numbers

section Attempts
variable {toLower : Char → Char} {order order' : Order} {m m' r r' : Names} {e e' : Text × Text}

/-- The loops go through the groups of the paths with one name. -/
theorem mem_attempt : e ∈ (attempt toLower order m).1 ↔
    ∃ o ∈ m, e ∈ number m (originals toLower (order.visit m) (o.2.map toLower)) := by
  have whole := grouped toLower (order.visit m)
  have visited := order.perm m
  simp only [attempt,List.mem_flatMap,(order.perm _).mem_iff]
  constructor
  · rintro ⟨g,listed,inside⟩
    obtain ⟨o,member,same⟩ := (whole.whole g.1).mp (List.mem_map.mpr ⟨g,listed,rfl⟩)
    refine ⟨o,visited.mem_iff.mp member,?_⟩
    rwa [same,← whole.each g listed]
  · rintro ⟨o,member,inside⟩
    obtain ⟨g,listed,same⟩ := List.mem_map.mp ((whole.whole _).mpr ⟨o,visited.mem_iff.mpr member,rfl⟩)
    refine ⟨g,listed,?_⟩
    rwa [whole.each g listed,same]

theorem attempt_keys (toLower : Char → Char) (order : Order) (m : Names) :
    ((attempt toLower order m).1.map Prod.fst).Perm (m.map Prod.fst) := by
  have whole := grouped toLower (order.visit m)
  have each (groups : List (Text × List Text)) :
      ((groups.flatMap fun g => number m g.2).map Prod.fst).Perm (groups.flatMap Prod.snd) := by
    rw [List.map_flatMap]
    exact List.Perm.flatMap (.refl _) fun g member => number_fst
  exact (each _).trans (((order.perm _).flatMap_right _).trans (whole.all.trans ((order.perm m).map _)))

theorem attempt_flag : (attempt toLower order m).2 = false ↔ ∀ e ∈ m, (originals toLower m (e.2.map toLower)).length = 1 := by
  have whole := grouped toLower (order.visit m)
  have visited := order.perm m
  simp only [attempt,List.any_eq_false,decide_eq_true_eq,not_not]
  constructor
  · intro single e member
    obtain ⟨g,listed,same⟩ := List.mem_map.mp ((whole.whole _).mpr ⟨e,visited.mem_iff.mpr member,rfl⟩)
    rw [← same,← (originals_perm visited g.1).length_eq,← whole.each g listed]
    exact single g listed
  · intro single g listed
    obtain ⟨o,member,same⟩ := (whole.whole g.1).mp (List.mem_map.mpr ⟨g,listed,rfl⟩)
    rw [whole.each g listed,(originals_perm visited g.1).length_eq,← same]
    exact single o (visited.mem_iff.mp member)

theorem attempt_perm (toLower : Char → Char) (order order' : Order) (nodup : (m.map Prod.fst).Nodup) (perm : m.Perm m') :
    (attempt toLower order m).1.Perm (attempt toLower order' m').1 ∧ (attempt toLower order m).2 = (attempt toLower order' m').2 := by
  have nodup' := (perm.map Prod.fst).nodup_iff.mp nodup
  constructor
  · refine (List.perm_ext_iff_of_nodup (((attempt_keys _ _ _).nodup_iff.mpr nodup).of_map _) (((attempt_keys _ _ _).nodup_iff.mpr nodup').of_map _)).mpr fun e => ?_
    rw [mem_attempt,mem_attempt]
    refine exists_congr fun o => and_congr perm.mem_iff ?_
    have visited := (order.perm m).trans (perm.trans (order'.perm m').symm)
    rw [number_congr (originals_perm visited _) (lookup_congr nodup perm)]
  · rw [Bool.eq_iff_iff,← not_iff_not,Bool.not_eq_true,Bool.not_eq_true,attempt_flag,attempt_flag]
    refine forall_congr' fun e => imp_congr perm.mem_iff ?_
    rw [(originals_perm perm _).length_eq]

theorem attempt_of_mem (nodup : (m.map Prod.fst).Nodup) (member : e ∈ (attempt toLower order m).1) :
    ∃ o ∈ m, o.1 = e.1 ∧ ∃ i, e.2 = o.2 ++ suffix i ∧ ((originals toLower m (o.2.map toLower)).length = 1 → i = 0) := by
  obtain ⟨o,_,inside⟩ := mem_attempt.mp member
  obtain ⟨listed,i,name,alone⟩ := number_of_mem inside
  obtain ⟨o',member',same,path⟩ := mem_originals.mp listed
  have inside' := (order.perm m).mem_iff.mp member'
  refine ⟨o',inside',path,i,?_,?_⟩
  · rw [name,← path,lookup_of_mem nodup inside']
  · rwa [same,← (originals_perm (order.perm m) _).length_eq]

/-- Of the paths with one name, one keeps it. -/
theorem attempt_kept (order : Order) (nodup : (m.map Prod.fst).Nodup) (member : e ∈ m) :
    ∃ kept ∈ m, kept.2.map toLower = e.2.map toLower ∧
      ∀ e' ∈ m, e'.2.map toLower = e.2.map toLower → (e' ∈ (attempt toLower order m).1 ↔ e' = kept) := by
  have visited := order.perm m
  have inside : e.1 ∈ originals toLower (order.visit m) (e.2.map toLower) := mem_originals.mpr ⟨e,visited.mem_iff.mpr member,rfl,rfl⟩
  obtain ⟨head,listed,kept⟩ := number_kept (m := m) (List.ne_nil_of_mem inside)
  obtain ⟨k,visited_mem,same,rfl⟩ := mem_originals.mp listed
  have member' := visited.mem_iff.mp visited_mem
  refine ⟨k,member',same,fun e' inside' same' => ?_⟩
  have place := kept e'.1
  rw [lookup_of_mem nodup inside'] at place
  rw [mem_attempt]
  constructor
  · rintro ⟨o,o_mem,numbered⟩
    obtain ⟨o',o'_mem,label,path⟩ := mem_originals.mp (number_of_mem numbered).1
    obtain rfl := eq_of_path nodup (visited.mem_iff.mp o'_mem) inside' path
    rw [← label,same'] at numbered
    exact eq_of_path nodup inside' member' (place.mp numbered)
  · rintro rfl
    exact ⟨e,member,place.mpr rfl⟩

end Attempts

section Rounds
variable {toLower : Char → Char} {order : Order} {orders : Nat → Order} {m r : Names}

/-- No path has the name of another one that is shorter than a bound. -/
def Calm (toLower : Char → Char) (m : Names) (bound : Nat) : Prop :=
  ∀ e ∈ m, e.2.length < bound → (originals toLower m (e.2.map toLower)).length = 1

def short (m : Names) (bound : Nat) : Nat := m.countP fun e => e.2.length < bound

theorem label_length {a b : Text} (same : a.map toLower = b.map toLower) : a.length = b.length := by
  simpa using congrArg List.length same

/-- Where the short names are alone, the names that are as short afterwards are old ones. -/
theorem old_of_short (nodup : (m.map Prod.fst).Nodup) (bound : Nat) (calm : Calm toLower m bound) {e : Text × Text}
    (member : e ∈ (attempt toLower order m).1) (small : e.2.length ≤ bound) : e ∈ m := by
  obtain ⟨o,inside,path,i,name,alone⟩ := attempt_of_mem nodup member
  have unchanged : i = 0 := by
    by_contra changed
    have longer : 0 < (suffix i).length := List.length_pos_iff.mpr (mt suffix_eq_nil.mp changed)
    rw [name,List.length_append] at small
    exact changed (alone (calm o inside (by omega)))
  rw [unchanged,show suffix 0 = [] from rfl,List.append_nil] at name
  rwa [← Prod.ext path name.symm]

/-- A bound below which the names are alone grows with each attempt. -/
theorem calm_attempt (nodup : (m.map Prod.fst).Nodup) {bound : Nat} (calm : Calm toLower m bound) :
    Calm toLower (attempt toLower order m).1 (bound + 1) := by
  intro e member small
  refine (originals_single ((attempt_keys _ _ _).nodup_iff.mpr nodup) member).mpr fun e' member' same => ?_
  have inside := old_of_short nodup _ calm member (by omega)
  have inside' := old_of_short nodup _ calm member' (by have := label_length same; omega)
  obtain ⟨kept,_,_,only⟩ := attempt_kept order nodup inside
  exact ((only e' inside' same).mp member').trans ((only e inside rfl).mp member).symm

theorem kept_of_single (nodup : (m.map Prod.fst).Nodup) {e : Text × Text} (member : e ∈ m)
    (single : (originals toLower m (e.2.map toLower)).length = 1) : e ∈ (attempt toLower order m).1 := by
  obtain ⟨kept,inside,same,only⟩ := attempt_kept order nodup member
  obtain rfl := (originals_single nodup member).mp single kept inside same
  exact (only kept member rfl).mpr rfl

/-- And so does the number of the names below it, where some path is not alone. -/
theorem short_attempt (nodup : (m.map Prod.fst).Nodup) {bound : Nat} (calm : Calm toLower m bound)
    (flagged : (attempt toLower order m).2 = true) :
    ∃ bound', Calm toLower (attempt toLower order m).1 bound' ∧ short m bound < short (attempt toLower order m).1 bound' := by
  have crowded : ∃ n, ∃ e ∈ m, e.2.length = n ∧ (originals toLower m (e.2.map toLower)).length ≠ 1 := by
    by_contra none
    push Not at none
    rw [attempt_flag.mpr fun e member => none _ e member rfl] at flagged
    exact Bool.false_ne_true flagged
  obtain ⟨e,member,long,several⟩ := Nat.find_spec crowded
  generalize least : Nat.find crowded = n at long
  have calm' : Calm toLower m n := by
    intro e' member' small
    by_contra other
    exact Nat.find_min crowded (least ▸ small) ⟨e',member',rfl,other⟩
  have above : bound ≤ n := by
    by_contra below
    exact several (calm e member (by omega))
  refine ⟨n + 1,calm_attempt nodup calm',?_⟩
  obtain ⟨kept,inside,same,only⟩ := attempt_kept order nodup member
  have exact_length : kept.2.length = n := (label_length same).trans long
  have distinct := nodup.of_map Prod.fst
  have whole : (kept :: m.filter fun e => e.2.length < n) ⊆ (attempt toLower order m).1.filter fun e => e.2.length < n + 1 := by
    intro e' listed
    rw [List.mem_filter,decide_eq_true_eq]
    rcases List.mem_cons.mp listed with rfl | listed
    · exact ⟨(only e' inside same).mpr rfl,by omega⟩
    · obtain ⟨member',small⟩ := List.mem_filter.mp listed
      have small : e'.2.length < n := of_decide_eq_true small
      exact ⟨kept_of_single nodup member' (calm' e' member' small),by omega⟩
  have fresh : (kept :: m.filter fun e => e.2.length < n).Nodup := by
    refine List.nodup_cons.mpr ⟨fun listed => ?_,distinct.filter _⟩
    have small := of_decide_eq_true (List.mem_filter.mp listed).2
    omega
  have more := (List.subperm_of_subset fresh whole).length_le
  have wider : short m bound ≤ short m n := List.countP_mono_left fun e _ small => by
    have small := of_decide_eq_true small
    exact decide_eq_true (by omega)
  rw [List.length_cons,← List.countP_eq_length_filter,← List.countP_eq_length_filter] at more
  exact Nat.lt_of_le_of_lt wider more

/-- Without the names of several paths nothing changes. -/
theorem attempt_settled (nodup : (m.map Prod.fst).Nodup) (settled : (attempt toLower order m).2 = false) :
    (attempt toLower order m).1.Perm m ∧ (m.map fun e => e.2.map toLower).Nodup := by
  have single := attempt_flag.mp settled
  have distinct := nodup.of_map Prod.fst
  constructor
  · refine (List.perm_ext_iff_of_nodup (((attempt_keys _ _ _).nodup_iff.mpr nodup).of_map _) distinct).mpr fun e =>
      ⟨fun member => ?_,fun member => kept_of_single nodup member (single e member)⟩
    exact old_of_short nodup e.2.length (fun o inside _ => single o inside) member le_rfl
  · exact (List.nodup_map_iff_inj_on distinct).mpr fun e member e' member' same =>
      ((originals_single nodup member).mp (single e member) e' member' same.symm).symm

/-- What the names become. -/
structure Disambiguated (toLower : Char → Char) (m r : Names) : Prop where
  keys : (r.map Prod.fst).Perm (m.map Prod.fst)
  distinct : (r.map fun e => e.2.map toLower).Nodup
  leading : ∀ e ∈ r, ∃ o ∈ m, o.1 = e.1 ∧ ∃ numbers : List Nat, e.2 = o.2 ++ numbers.flatMap suffix
  used : ∀ o ∈ m, ∃ e ∈ r, e.2.map toLower = o.2.map toLower

theorem disambiguated (orders : Nat → Order) (calls : Nat) {m : Names} (nodup : (m.map Prod.fst).Nodup) {bound : Nat} (calm : Calm toLower m bound)
    (enough : m.length < calls + short m bound) :
    ∃ r, disambiguateSafeNames toLower orders calls m = some r ∧ Disambiguated toLower m r := by
  induction calls generalizing m bound with
  | zero => exact absurd enough (by have : short m bound ≤ m.length := List.countP_le_length; omega)
  | succ calls ih =>
    rw [disambiguateSafeNames]
    have keys := attempt_keys toLower (orders calls) m
    have nodup' := keys.nodup_iff.mpr nodup
    have from_old {e : Text × Text} (member : e ∈ (attempt toLower (orders calls) m).1) := attempt_of_mem nodup member
    have used : ∀ o ∈ m, ∃ e ∈ (attempt toLower (orders calls) m).1, e.2.map toLower = o.2.map toLower := fun o member => by
      obtain ⟨kept,inside,same,only⟩ := attempt_kept (orders calls) nodup member
      exact ⟨kept,(only kept inside same).mpr rfl,same⟩
    cases shape : attempt toLower (orders calls) m with
    | mk result flag =>
      rw [shape] at keys nodup' from_old used
      cases flag with
      | false =>
        have calm_all := attempt_settled nodup (congrArg Prod.snd shape)
        rw [shape] at calm_all
        refine ⟨result,rfl,keys,(calm_all.1.map _).nodup_iff.mpr calm_all.2,?_,used⟩
        · intro e member
          obtain ⟨o,inside,path,i,name,-⟩ := from_old member
          exact ⟨o,inside,path,[i],by simpa using name⟩
      | true =>
        obtain ⟨bound',calm',more⟩ := short_attempt nodup calm (congrArg Prod.snd shape)
        rw [shape] at calm' more
        have same_length : result.length = m.length := by simpa using keys.length_eq
        obtain ⟨r,done,spec⟩ := ih (m := result) nodup' calm' (by simp only at more same_length; omega)
        refine ⟨r,done,spec.keys.trans keys,spec.distinct,fun e member => ?_,fun o member => ?_⟩
        · obtain ⟨o,inside,path,tail,name⟩ := spec.leading e member
          obtain ⟨o',inside',path',i,name',-⟩ := from_old inside
          exact ⟨o',inside',path'.trans path,i :: tail,by rw [name,name',List.flatMap_cons,List.append_assoc]⟩
        · obtain ⟨e,inside,same⟩ := used o member
          obtain ⟨e',inside',same'⟩ := spec.used e inside
          exact ⟨e',inside',same'.trans same⟩

theorem rounds_perm (orders orders' : Nat → Order) {m' r' : Names} (calls calls' : Nat) (nodup : (m.map Prod.fst).Nodup) (perm : m.Perm m')
    (done : disambiguateSafeNames toLower orders calls m = some r) (done' : disambiguateSafeNames toLower orders' calls' m' = some r') :
    r.Perm r' := by
  induction calls generalizing m m' calls' with
  | zero => cases done
  | succ calls ih =>
    cases calls' with
    | zero => cases done'
    | succ calls' =>
      obtain ⟨same,flag⟩ := attempt_perm toLower (orders calls) (orders' calls') nodup perm
      have nodup' := (attempt_keys toLower (orders calls) m).nodup_iff.mpr nodup
      rw [disambiguateSafeNames] at done done'
      split at done
      next result first =>
        split at done'
        next result' second =>
          rw [first,second] at same
          rw [← Option.some.inj done,← Option.some.inj done']
          exact same
        next result' second =>
          rw [first,second] at flag
          exact absurd flag Bool.false_ne_true
      next result first =>
        split at done'
        next result' second =>
          rw [first,second] at flag
          exact absurd flag.symm Bool.false_ne_true
        next result' second =>
          rw [first,second] at same
          rw [first] at nodup'
          exact ih _ nodup' same done done'

/-- The calls end, with one result whatever the order of the loops. -/
theorem names_settle (toLower : Char → Char) {m : Names} (nodup : (m.map Prod.fst).Nodup) :
    ∃ r, Disambiguated toLower m r ∧ ((m.map fun e => e.2.map toLower).Nodup → r.Perm m) ∧
      ∀ orders m' calls, m'.Perm m → m.length < calls → ∃ r', disambiguateSafeNames toLower orders calls m' = some r' ∧ r'.Perm r := by
  have calm (m : Names) : Calm toLower m 0 := fun e _ small => absurd small (Nat.not_lt_zero _)
  obtain ⟨r,done,spec⟩ := disambiguated (fun _ => ⟨id,fun _ => .refl _⟩) (m.length + 1) nodup (calm m) (by omega)
  refine ⟨r,spec,fun distinct => ?_,fun orders m' calls perm enough => ?_⟩
  · have single : (attempt toLower ⟨id,fun _ => .refl _⟩ m).2 = false := attempt_flag.mpr fun e member =>
      (originals_single nodup member).mpr fun e' member' same => List.inj_on_of_nodup_map distinct member' member same
    rw [disambiguateSafeNames] at done
    split at done
    next result shape =>
      have settled := (attempt_settled nodup single).1
      rw [shape] at settled
      exact Option.some.inj done ▸ settled
    next result shape =>
      rw [shape] at single
      exact absurd single.symm Bool.false_ne_true
  · have nodup' := (perm.map Prod.fst).nodup_iff.mpr nodup
    obtain ⟨r',done',-⟩ := disambiguated orders calls nodup' (calm m') (by rw [perm.length_eq]; omega)
    exact ⟨r',done',(rounds_perm _ _ _ _ nodup perm.symm done done').symm⟩

def cPaths : Names := [(['c',':'],['c']),(['C'],['C'])]

def reversed : Order := ⟨List.reverse,List.reverse_perm⟩

theorem names_settle_pair : ∃ r, Disambiguated Char.toLower cPaths r ∧
    ∃ r', disambiguateSafeNames Char.toLower (fun _ => reversed) 3 cPaths = some r' ∧ r'.Perm r := by
  obtain ⟨r,spec,-,all⟩ := names_settle Char.toLower (m := cPaths) (by decide)
  exact ⟨r,spec,all _ _ 3 (.refl _) (by decide)⟩

end Rounds

section Mounted
variable {toLower : Char → Char} {orders : Nat → Order} {order : Order} {calls : Nat} {keys : List Text} {r : Names}

theorem separators_replaced (p : Text) : ∀ c ∈ safeNameForMount p, c ≠ '/' ∧ c ≠ '\\' := by
  have trimmed (a : Char) (p : Text) : trimRight a p ⊆ p := fun c inside =>
    List.mem_reverse.mp ((List.dropWhile_sublist _).subset (List.mem_reverse.mp inside))
  unfold safeNameForMount
  split
  next => simp [root]
  next =>
    intro c inside
    have kept := trimmed _ _ (trimmed _ _ inside)
    obtain ⟨b,member,rfl⟩ := List.mem_map.mp kept
    obtain ⟨a,-,rfl⟩ := List.mem_map.mp member
    grind

theorem suffix_separators (i : Nat) : ∀ c ∈ suffix i, c ≠ '/' ∧ c ≠ '\\' := by
  have digit {c : Char} (inside : c ∈ Nat.toDigits 10 (i + 1)) : c ≠ '/' ∧ c ≠ '\\' := by
    have known := Nat.isDigit_of_mem_toDigits (by decide) (by decide) inside
    constructor <;>
    · rintro rfl
      exact absurd known (by decide)
  unfold suffix
  split
  next =>
    intro c inside
    rcases List.mem_append.mp inside with front | last
    · rcases List.mem_append.mp front with first | middle
      · rcases List.mem_cons.mp first with rfl | second
        · decide
        · rw [List.mem_singleton.mp second]
          decide
      · exact digit middle
    · rw [List.mem_singleton.mp last]
      decide
  next => exact fun c inside => absurd inside List.not_mem_nil

theorem safeNames_keys (keys : List Text) : (safeNames keys).map Prod.fst = keys.dedup := by
  rw [safeNames,List.map_map]
  exact List.map_id _

/-- The names that the entries for some keys are given. -/
structure Named (toLower : Char → Char) (keys : List Text) (r : Names) : Prop where
  apart : ∀ a ∈ keys, ∀ b ∈ keys, (lookup r a).map toLower = (lookup r b).map toLower → a = b
  clean : ∀ a ∈ keys, ∀ c ∈ lookup r a, c ≠ '/' ∧ c ≠ '\\'

theorem named (toLower : Char → Char) (orders : Nat → Order) (keys : List Text) (enough : keys.length < calls) :
    ∃ r, disambiguateSafeNames toLower orders calls (safeNames keys) = some r ∧ Named toLower keys r := by
  have nodup : ((safeNames keys).map Prod.fst).Nodup := safeNames_keys keys ▸ List.nodup_dedup keys
  have few : (safeNames keys).length ≤ keys.length := by
    rw [safeNames,List.length_map]
    exact (List.dedup_sublist keys).length_le
  have calm : Calm toLower (safeNames keys) 0 := fun e _ small => absurd small (Nat.not_lt_zero _)
  obtain ⟨r,done,spec⟩ := disambiguated orders calls nodup calm (by omega)
  have nodup' := spec.keys.nodup_iff.mpr nodup
  have entry {a : Text} (member : a ∈ keys) : ∃ e ∈ r, e.1 = a ∧ lookup r a = e.2 := by
    obtain ⟨e,inside,rfl⟩ := List.mem_map.mp (spec.keys.mem_iff.mpr (safeNames_keys keys ▸ List.mem_dedup.mpr member))
    exact ⟨e,inside,rfl,lookup_of_mem nodup' inside⟩
  refine ⟨r,done,fun a member b member' same => ?_,fun a member => ?_⟩
  · obtain ⟨e,inside,rfl,name⟩ := entry member
    obtain ⟨e',inside',rfl,name'⟩ := entry member'
    rw [name,name'] at same
    rw [List.inj_on_of_nodup_map spec.distinct inside inside' same]
  · obtain ⟨e,inside,rfl,name⟩ := entry member
    obtain ⟨o,listed,-,numbers,long⟩ := spec.leading e inside
    obtain ⟨key,-,rfl⟩ := List.mem_map.mp listed
    rw [name,long]
    intro c present
    rcases List.mem_append.mp present with first | rest
    · exact separators_replaced _ c first
    · obtain ⟨i,-,part⟩ := List.mem_flatMap.mp rest
      exact suffix_separators i c part

/-- The entry that is found under a name has the key of each entry with the name. -/
theorem find_of_apart {α : Type} {l : List α} (key label : α → Text) {a : α} (member : a ∈ l)
    (apart : ∀ b ∈ l, label b = label a → key b = key a) : ∃ b, (l.find? fun b => label b = label a) = some b ∧ b ∈ l ∧ key b = key a := by
  have exists_one : (l.find? fun b => label b = label a).isSome := List.find?_isSome.mpr ⟨a,member,decide_eq_true_eq.mpr rfl⟩
  obtain ⟨b,found⟩ := Option.isSome_iff_exists.mp exists_one
  have inside := List.mem_of_find?_eq_some found
  have same := List.find?_some found
  exact ⟨b,found,inside,apart b inside (of_decide_eq_true same)⟩

end Mounted

end Vbe.Snapshots.Sources
