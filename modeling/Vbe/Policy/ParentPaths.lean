import Mathlib.Data.List.Infix
import Mathlib.Data.List.TakeDrop

/-! The parents of a path, found without knowing which system it is from. -/
namespace Vbe.Policies

def isSlashOrBackslash (c : Char) : Bool := c == '/' || c == '\\'

/-- `strings.LastIndexAny` of slashes and backslashes. -/
def lastSeparator : List Char → Int
  | [] => -1
  | c :: rest => if lastSeparator rest ≥ 0 then lastSeparator rest + 1 else if isSlashOrBackslash c then 0 else -1

/-- A drive letter is one byte long. -/
def volumeAndPath (p : List Char) : List Char × List Char :=
  match p with
  | letter :: colon :: s :: rest =>
    if letter.utf8Size = 1 ∧ colon = ':' ∧ isSlashOrBackslash s then ([letter,colon],s :: rest) else ([],p)
  | _ => ([],p)

/-- What is left of a path up to the separator. -/
def upToSeparator (p vol pth : List Char) (last : Int) : List Char :=
  if last < 0 then p else if last = 0 then vol ++ pth.take 1 else vol ++ pth.take last.toNat

/-- A slice that ends before the string begins panics. -/
def getParentPathOSIndependent (p : List Char) : Option (List Char) :=
  let vol := (volumeAndPath p).1
  let pth := (volumeAndPath p).2
  let last := lastSeparator pth
  if last = pth.length - 1 ∧ last ≠ 0 then
    if last < 0 then none
    else
      let pth := pth.take last.toNat
      some (upToSeparator p vol pth (lastSeparator pth))
  else some (upToSeparator p vol pth last)

theorem lastSeparator_bounds (l : List Char) : -1 ≤ lastSeparator l ∧ lastSeparator l < l.length := by
  induction l with
  | nil => simp [lastSeparator]
  | cons c rest ih =>
    rw [lastSeparator,List.length_cons]
    split
    next => omega
    next =>
      split
      next => omega
      next => omega

theorem volumeAndPath_whole (p : List Char) : (volumeAndPath p).1 ++ (volumeAndPath p).2 = p := by
  unfold volumeAndPath
  split
  next letter colon s rest =>
    split
    next => rfl
    next => rfl
  next => rfl

theorem upToSeparator_cases {p vol pth : List Char} (inside : (vol ++ pth).length ≤ p.length) {last : Int}
    (bound : last < pth.length) :
    upToSeparator p vol pth last = p ∨ (upToSeparator p vol pth last).length < p.length ∨
      upToSeparator p vol pth last = vol ++ pth ∧ pth.length = 1 := by
  rw [List.length_append] at inside
  unfold upToSeparator
  split
  next => exact .inl rfl
  next =>
    split
    next first =>
      by_cases one : pth.length = 1
      · exact .inr (.inr ⟨by rw [List.take_of_length_le (by omega)],one⟩)
      · refine .inr (.inl ?_)
        rw [List.length_append,List.length_take]
        omega
    next =>
      refine .inr (.inl ?_)
      rw [List.length_append,List.length_take]
      omega

/-- A parent is shorter, or the path itself. -/
theorem parent_shorter {p q : List Char} (parent : getParentPathOSIndependent p = some q) : q = p ∨ q.length < p.length := by
  have whole := congrArg List.length (volumeAndPath_whole p)
  rw [List.length_append] at whole
  have bounds := lastSeparator_bounds (volumeAndPath p).2
  unfold getParentPathOSIndependent at parent
  dsimp only at parent
  split at parent
  next trailing =>
    split at parent
    next => contradiction
    next found =>
      cases Option.some.inj parent
      have kept := (lastSeparator_bounds ((volumeAndPath p).2.take (lastSeparator (volumeAndPath p).2).toNat)).2
      have length : ((volumeAndPath p).2.take (lastSeparator (volumeAndPath p).2).toNat).length < (volumeAndPath p).2.length := by
        rw [List.length_take]
        omega
      rcases @upToSeparator_cases p (volumeAndPath p).1 _ (by rw [List.length_append]; omega) _ kept with
        same | shorter | ⟨same,-⟩
      · exact .inl same
      · exact .inr shorter
      · refine .inr ?_
        rw [same,List.length_append]
        omega
  next =>
    cases Option.some.inj parent
    rcases @upToSeparator_cases p (volumeAndPath p).1 _ (by rw [List.length_append]; omega) _ bounds.2 with
      same | shorter | ⟨same,-⟩
    · exact .inl same
    · exact .inr shorter
    · exact .inl (same.trans (volumeAndPath_whole p))

/-- The paths that the loop up to the root visits. -/
def parentPaths (p : List Char) : Option (List (List Char)) :=
  match _ : getParentPathOSIndependent p with
  | none => none
  | some q => if _ : q = p then some [p] else (parentPaths q).map (p :: ·)
termination_by p.length
decreasing_by exact (parent_shorter (by assumption)).resolve_left (by assumption)

theorem volumeAndPath_path {p : List Char} (some : p ≠ []) : (volumeAndPath p).2 ≠ [] := by
  unfold volumeAndPath
  split
  next letter colon s rest =>
    split
    next => simp
    next => simp
  next => exact some

theorem upToSeparator_ne_nil {p vol pth : List Char} (whole : p ≠ []) (some : pth ≠ []) (last : Int) : upToSeparator p vol pth last ≠ [] := by
  have positive : 0 < pth.length := List.length_pos_iff.mpr some
  unfold upToSeparator
  split
  next => exact whole
  next =>
    rw [← List.length_pos_iff]
    split
    next =>
      rw [List.length_append,List.length_take]
      omega
    next =>
      rw [List.length_append,List.length_take]
      omega

/-- Only the parent of the empty path panics. -/
theorem parent_some {p : List Char} (some : p ≠ []) : ∃ q, getParentPathOSIndependent p = .some q ∧ q ≠ [] := by
  have path := volumeAndPath_path some
  have positive : 0 < (volumeAndPath p).2.length := List.length_pos_iff.mpr path
  unfold getParentPathOSIndependent
  dsimp only
  split
  next trailing =>
    rw [if_neg (by omega)]
    refine ⟨_,rfl,upToSeparator_ne_nil some ?_ _⟩
    rw [← List.length_pos_iff,List.length_take]
    omega
  next => exact ⟨_,rfl,upToSeparator_ne_nil some path _⟩

theorem parentPaths_root {p : List Char} (own : getParentPathOSIndependent p = some p) : parentPaths p = some [p] := by
  rw [parentPaths]
  split
  next none => rw [own] at none; contradiction
  next q parent =>
    rw [own] at parent
    cases parent
    rw [dif_pos rfl]

theorem parentPaths_parent {p q : List Char} (parent : getParentPathOSIndependent p = some q) (other : q ≠ p) :
    parentPaths p = (parentPaths q).map (p :: ·) := by
  conv_lhs => rw [parentPaths]
  split
  next none => rw [parent] at none; contradiction
  next q' parent' =>
    rw [parent] at parent'
    cases parent'
    rw [dif_neg other]

theorem parentPaths_some {p : List Char} (some : p ≠ []) : ∃ above, parentPaths p = .some (p :: above) := by
  induction size : p.length using Nat.strong_induction_on generalizing p with
  | h n ih =>
    obtain ⟨q,parent,further⟩ := parent_some some
    by_cases own : q = p
    · exact ⟨[],parentPaths_root (own ▸ parent)⟩
    · have shorter := (parent_shorter parent).resolve_left own
      obtain ⟨above,found⟩ := ih q.length (by omega) further rfl
      exact ⟨q :: above,by rw [parentPaths_parent parent own,found]; rfl⟩

/-- Names after separators. -/
abbrev Names := List (Char × List Char)

def joined (vol : List Char) (names : Names) : List Char := vol ++ names.flatMap fun n => n.1 :: n.2

/-- A drive letter with a colon, or nothing. -/
def IsVolume (vol : List Char) : Prop := vol = [] ∨ ∃ letter, letter.utf8Size = 1 ∧ isSlashOrBackslash letter = false ∧ vol = [letter,':']

structure Clean (vol : List Char) (names : Names) : Prop where
  volume : IsVolume vol
  some : names ≠ []
  separated : ∀ n ∈ names, isSlashOrBackslash n.1 = true
  named : ∀ n ∈ names, n.2 ≠ [] ∧ ∀ c ∈ n.2, isSlashOrBackslash c = false

/-- The directories above names, the longest first, and the root with its separator. -/
def directories (vol : List Char) (names : Names) : List (List Char) :=
  (names.inits.tail.reverse.map (joined vol)) ++ (names.head?.map fun n => vol ++ [n.1]).toList

/-- A name that is only a colon looks like a volume when it is between two separators. -/
def ColonFirst (p : List Char) : Prop :=
  ∃ a b rest, p = a :: ':' :: b :: rest ∧ isSlashOrBackslash a = true ∧ isSlashOrBackslash b = true

theorem separator_size {c : Char} (separator : isSlashOrBackslash c = true) : c.utf8Size = 1 := by
  rcases (by simpa [isSlashOrBackslash] using separator : c = '/' ∨ c = '\\') with rfl | rfl <;> rfl

theorem lastSeparator_plain {l : List Char} (plain : ∀ c ∈ l, isSlashOrBackslash c = false) : lastSeparator l = -1 := by
  induction l with
  | nil => rfl
  | cons c rest ih =>
    rw [lastSeparator,ih fun d member => plain d (by simp [member]),plain c (by simp)]
    rfl

theorem lastSeparator_append (before : List Char) {s : Char} (separator : isSlashOrBackslash s = true) {n : List Char}
    (plain : ∀ c ∈ n, isSlashOrBackslash c = false) : lastSeparator (before ++ s :: n) = before.length := by
  induction before with
  | nil =>
    rw [List.nil_append,lastSeparator,lastSeparator_plain plain,separator]
    rfl
  | cons c before ih =>
    rw [List.cons_append,lastSeparator,ih,if_pos (by omega),List.length_cons]
    omega

/-- The volume of a clean path is found unless the first name is a colon. -/
theorem volumeAndPath_rooted {vol : List Char} (volume : IsVolume vol) {s : Char} (separator : isSlashOrBackslash s = true)
    (rest : List Char) (proper : vol = [] → ¬ColonFirst (s :: rest)) : volumeAndPath (vol ++ s :: rest) = (vol,s :: rest) := by
  rcases volume with rfl | ⟨letter,size,-,rfl⟩
  · rw [List.nil_append]
    unfold volumeAndPath
    split
    next letter colon b more same =>
      cases same
      rw [if_neg]
      rintro ⟨-,rfl,second⟩
      exact proper rfl ⟨_,_,_,rfl,separator,second⟩
    next => rfl
  · simp [volumeAndPath,size,separator]

/-- The parent of a path with names is the path without the last, or the root. -/
theorem parent_joined {vol : List Char} (volume : IsVolume vol) (front : Names) {s : Char} (separator : isSlashOrBackslash s = true)
    {n : List Char} (some : n ≠ []) (plain : ∀ c ∈ n, isSlashOrBackslash c = false)
    (separated : ∀ m ∈ front, isSlashOrBackslash m.1 = true)
    (proper : vol = [] → ¬ColonFirst (joined [] (front ++ [(s,n)]))) :
    getParentPathOSIndependent (joined vol (front ++ [(s,n)])) =
      .some (if front = [] then vol ++ [s] else joined vol front) := by
  have split : joined vol (front ++ [(s,n)]) = vol ++ (front.flatMap (fun m => m.1 :: m.2) ++ s :: n) := by
    simp [joined]
  have rooted : volumeAndPath (joined vol (front ++ [(s,n)])) = (vol,front.flatMap (fun m => m.1 :: m.2) ++ s :: n) := by
    rw [split]
    cases front with
    | nil => exact volumeAndPath_rooted volume separator n fun none => by simpa [joined] using proper none
    | cons first more =>
      have own := separated first (by simp)
      have shape : (first :: more).flatMap (fun m => m.1 :: m.2) ++ s :: n =
          first.1 :: (first.2 ++ more.flatMap (fun m => m.1 :: m.2) ++ s :: n) := by simp
      rw [shape]
      refine volumeAndPath_rooted volume own _ fun none => ?_
      have whole := proper none
      simpa [joined] using whole
  have last := lastSeparator_append (front.flatMap fun m => m.1 :: m.2) separator plain
  have more : 0 < n.length := List.length_pos_iff.mpr some
  unfold getParentPathOSIndependent
  dsimp only
  rw [rooted]
  dsimp only
  rw [last,if_neg (by simp; omega),upToSeparator,if_neg (by omega)]
  cases front with
  | nil => simp
  | cons first more =>
    have nonempty : 0 < ((first :: more).flatMap fun m => m.1 :: m.2).length := by simp only [List.flatMap_cons,List.cons_append,List.length_cons,Nat.zero_lt_succ]
    rw [if_neg (by omega),Int.toNat_natCast,List.take_left,if_neg (by simp)]
    rfl

theorem parentPaths_vol {vol : List Char} (volume : IsVolume vol) {s : Char} (separator : isSlashOrBackslash s = true) :
    parentPaths (vol ++ [s]) = some [vol ++ [s]] := by
  have rooted := volumeAndPath_rooted volume separator [] fun _ => by
    rintro ⟨a,b,rest,same,-⟩
    simp at same
  have first : lastSeparator [s] = 0 := by simp [lastSeparator,separator]
  refine parentPaths_root ?_
  unfold getParentPathOSIndependent
  dsimp only
  rw [rooted]
  dsimp only
  rw [first,if_neg (by simp),upToSeparator,if_neg (by simp),if_pos rfl]
  rfl

theorem directories_concat (vol : List Char) {front : Names} (some : front ≠ []) (n : Char × List Char) :
    directories vol (front ++ [n]) = joined vol (front ++ [n]) :: directories vol front := by
  have inits : (front ++ [n]).inits.tail = front.inits.tail ++ [front ++ [n]] := by
    rw [List.inits_append,List.inits_cons]
    cases front with
    | nil => contradiction
    | cons first more => simp
  have head : (front ++ [n]).head? = front.head? := by
    rw [List.head?_append_of_ne_nil _ some]
  rw [directories,inits,head,List.reverse_append,List.map_append]
  rfl

theorem Clean.front {vol : List Char} {front : Names} {n : Char × List Char} (clean : Clean vol (front ++ [n])) (some : front ≠ []) :
    Clean vol front :=
  ⟨clean.volume,some,fun m member => clean.separated m (by simp [member]),fun m member => clean.named m (by simp [member])⟩

theorem ColonFirst.longer {p : List Char} (first : ColonFirst p) (more : List Char) : ColonFirst (p ++ more) := by
  obtain ⟨a,b,rest,rfl,sepA,sepB⟩ := first
  exact ⟨a,b,rest ++ more,rfl,sepA,sepB⟩

theorem joined_concat (vol : List Char) (front : Names) (n : Char × List Char) :
    joined vol (front ++ [n]) = joined vol front ++ n.1 :: n.2 := by simp [joined]

theorem parentPaths_of_clean {vol : List Char} {names : Names} (clean : Clean vol names) (proper : ¬ColonFirst (joined vol names)) :
    parentPaths (joined vol names) = some (directories vol names) := by
  induction names using List.reverseRecOn with
  | nil => exact absurd rfl clean.some
  | append_singleton front n ih =>
    obtain ⟨s,name⟩ := n
    have separator : isSlashOrBackslash s = true := clean.separated (s,name) (by simp)
    have plain := clean.named (s,name) (by simp)
    have parent := parent_joined clean.volume front separator plain.1 plain.2
      (fun m member => clean.separated m (by simp [member])) (fun none => none ▸ proper)
    by_cases first : front = []
    · subst first
      rw [if_pos rfl] at parent
      have shorter : vol ++ [s] ≠ joined vol ([] ++ [(s,name)]) := by
        simpa [joined] using plain.1.symm
      rw [parentPaths_parent parent shorter,parentPaths_vol clean.volume separator]
      rfl
    · rw [if_neg first] at parent
      have shorter : joined vol front ≠ joined vol (front ++ [(s,name)]) := by
        rw [joined_concat]
        simp
      have above := ih (clean.front first) fun colon => proper (joined_concat vol front (s,name) ▸ colon.longer _)
      rw [parentPaths_parent parent shorter,above,directories_concat vol first]
      rfl

/-- Going up keeps what looks like a volume. -/
theorem parent_keeps {a b : Char} (sepA : isSlashOrBackslash a = true) (sepB : isSlashOrBackslash b = true) {rest q : List Char}
    (parent : getParentPathOSIndependent (a :: ':' :: b :: rest) = some q) : ∃ rest', q = a :: ':' :: b :: rest' := by
  have rooted : volumeAndPath (a :: ':' :: b :: rest) = ([a,':'],b :: rest) := by
    simp [volumeAndPath,separator_size sepA,sepB]
  have up (pth : List Char) (last : Int) :
      ∃ rest', upToSeparator (a :: ':' :: b :: rest) [a,':'] (b :: pth) last = a :: ':' :: b :: rest' := by
    unfold upToSeparator
    split
    next => exact ⟨rest,rfl⟩
    next =>
      split
      next => exact ⟨[],rfl⟩
      next =>
        obtain ⟨k,same⟩ : ∃ k : Nat, last.toNat = k + 1 := ⟨last.toNat - 1,by omega⟩
        rw [same]
        exact ⟨pth.take k,rfl⟩
  unfold getParentPathOSIndependent at parent
  dsimp only at parent
  rw [rooted] at parent
  dsimp only at parent
  split at parent
  next trailing =>
    split at parent
    next => contradiction
    next =>
      obtain ⟨k,same⟩ : ∃ k : Nat, (lastSeparator (b :: rest)).toNat = k + 1 := ⟨(lastSeparator (b :: rest)).toNat - 1,by omega⟩
      rw [same,List.take_succ_cons] at parent
      exact Option.some.inj parent ▸ up _ _
  next => exact Option.some.inj parent ▸ up _ _

/-- What going up preserves holds of all paths that are visited. -/
theorem parentPaths_invariant {K : List Char → Prop} (step : ∀ p q, K p → getParentPathOSIndependent p = some q → K q)
    {p : List Char} (holds : K p) {l : List (List Char)} (paths : parentPaths p = some l) : ∀ q ∈ l, K q := by
  induction size : p.length using Nat.strong_induction_on generalizing p l with
  | h n ih =>
    rw [parentPaths] at paths
    split at paths
    next => contradiction
    next q parent =>
      split at paths
      next =>
        cases Option.some.inj paths
        intro r member
        exact List.mem_singleton.mp member ▸ holds
      next other =>
        obtain ⟨above,found,rfl⟩ := Option.map_eq_some_iff.mp paths
        have shorter := (parent_shorter parent).resolve_left other
        intro r member
        rcases List.mem_cons.mp member with rfl | inside
        · exact holds
        · exact ih q.length (by omega) (step p q holds parent) found rfl r inside

/-- Up from a clean path the loop visits its directories, unless the first name looks like a volume. -/
theorem parentPaths_iff {vol : List Char} {names : Names} (clean : Clean vol names) :
    parentPaths (joined vol names) = some (directories vol names) ↔ ¬ColonFirst (joined vol names) := by
  refine ⟨?_,parentPaths_of_clean clean⟩
  rintro visited ⟨a,b,rest,shape,sepA,sepB⟩
  have keeps := parentPaths_invariant (K := fun p => ∃ rest', p = a :: ':' :: b :: rest')
    (fun p q kept parent => by obtain ⟨rest',rfl⟩ := kept; exact parent_keeps sepA sepB parent) ⟨rest,shape⟩ visited
  rcases clean.volume with rfl | ⟨letter,-,plain,rfl⟩
  · cases names with
    | nil => exact clean.some rfl
    | cons n more =>
      obtain ⟨rest',same⟩ := keeps [n.1] (by simp [directories])
      simp at same
  · have same : letter = a := by simpa [joined] using congrArg List.head? shape
    rw [same,sepA] at plain
    contradiction

end Vbe.Policies
