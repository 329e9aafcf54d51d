import Vbe.Wildcard.Brackets

/-! Patterns behind literal runes. Every element but a sequence is read in the same way wherever it stands, and a sequence as
long as its classes have names long enough. -/
namespace Vbe.Wildcard

variable (u : Unicode)

/-- Runes that stand for themselves. -/
def Literal (ignoreCase : Bool) (l : List Rune) : Prop := ∀ c ∈ l, fold u ignoreCase c ∉ ['\\','?','/','*','[',NUL]

def literalTokens (ignoreCase : Bool) (l : List Rune) : List Token := l.map fun c => .rune (fold u ignoreCase c)

def parse (options : Options) (pattern : List Rune) : Except PatternError (List Token) :=
  (NewWildcardMatcher u pattern options).map (·.tokens)

/-- The first token of the runes behind others, and the runes behind it. -/
def readBehind (ignoreCase : Bool) (before rest : List Rune) : Option (Option (Token × List Rune)) :=
  (nextToken u (before ++ rest) ⟨before.length,before ++ rest,ignoreCase⟩).toOption.map (·.map fun read => (read.1,read.2.rest))

/-- A sequence behind a separator is one token, and the same token behind a literal prefix. -/
def Independent (options : Options) (l : List Rune) (s : Sequence) : Prop := ∃ token,
  parse u options ('/' :: s.runes) = .ok (baseTokens (trimBaseDir options.baseDir) ++ [.dirSep,token]) ∧
    (l ≠ [] → ∃ front, parse u options ('/' :: l) = .ok front ∧ parse u options ('/' :: (l ++ s.runes)) = .ok (front ++ [token]))

variable {u}

section Bodies
variable {p : RuneScanner} {n turns : Nat} {c : Rune} {l rest pattern : List Rune} {result : List Token}

theorem nextToken_literal (place : At p n (c :: rest)) (literal : fold u p.ignoreCase c ∉ ['\\','?','/','*','[',NUL]) :
    nextToken u pattern p = .ok (some (.rune (fold u p.ignoreCase c),p.advance u)) := by
  simp only [List.mem_cons,List.not_mem_nil,or_false,not_or] at literal
  obtain ⟨backslash,question,slash,star,bracket,proper⟩ := literal
  rw [nextToken,show p.read u = (fold u p.ignoreCase c,p.advance u) from Prod.ext place.head rfl]
  dsimp only
  rw [if_neg proper,if_neg backslash,if_neg question,if_neg slash,if_neg star,if_neg bracket]

theorem nextToken_slash (ordinary : Ordinary u) (place : At p n ('/' :: rest)) :
    nextToken u pattern p = .ok (some (.dirSep,p.advance u)) := by
  have slash : p.peek u 0 = '/' := place.cons_head (by decide) ordinary
  rw [nextToken,show p.read u = ('/',p.advance u) from Prod.ext slash rfl]
  rfl

theorem bodyTokens_some {p' : RuneScanner} {token : Token} (read : nextToken u pattern p = .ok (some (token,p'))) :
    bodyTokens u pattern (turns + 1) p result = bodyTokens u pattern turns p' (result ++ [token]) := by
  rw [bodyTokens,read]
  rfl

variable (pattern) in
theorem bodyTokens_literal (place : At p n (l ++ rest)) (literal : Literal u p.ignoreCase l) :
    ∃ p', At p' (n + l.length) rest ∧ p'.ignoreCase = p.ignoreCase ∧ ∀ turns result,
      bodyTokens u pattern (l.length + turns) p result = bodyTokens u pattern turns p' (result ++ literalTokens u p.ignoreCase l) := by
  induction l generalizing p n with
  | nil => exact ⟨p,place,rfl,fun turns result => by simp [literalTokens]⟩
  | cons c l ih =>
    have own := literal c List.mem_cons_self
    have proper : c ≠ NUL := by
      intro none
      rw [fold_eq_NUL.mpr none] at own
      exact own (by decide)
    have behind : At (p.advance u) (n + 1) (l ++ rest) := place.advance proper
    have same : (p.advance u).ignoreCase = p.ignoreCase := advance_ignoreCase p
    obtain ⟨p',end',same',run⟩ := ih behind (same ▸ fun d member => literal d (List.mem_cons_of_mem _ member))
    refine ⟨p',?_,same'.trans same,fun turns result => ?_⟩
    · rw [List.length_cons,show n + (l.length + 1) = n + 1 + l.length by omega]
      exact end'
    · rw [List.length_cons,Nat.add_right_comm,bodyTokens_some (nextToken_literal place own),run,same,List.append_assoc]
      rfl

theorem bodyTokens_ended (place : At p n []) : bodyTokens u pattern (turns + 1) p result = .ok result := by
  rw [bodyTokens,nextToken,show p.read u = (NUL,p.advance u) from Prod.ext place.ended rfl]
  rfl

/-- Tokens are only added. -/
theorem bodyTokens_adds {tokens : List Token} (body : bodyTokens u pattern turns p result = .ok tokens) :
    result.length ≤ tokens.length := by
  induction turns generalizing p result with
  | zero =>
    cases body
    exact Nat.le_refl _
  | succ turns ih =>
    rw [bodyTokens] at body
    cases next : nextToken u pattern p with
    | error => simp [next,bind,Except.bind] at body
    | ok read =>
      simp only [next,bind,Except.bind] at body
      cases read with
      | none =>
        cases body
        exact Nat.le_refl _
      | some read =>
        have more := ih body
        rw [List.length_append] at more
        omega

/-- There are not more tokens than runes. -/
theorem bodyTokens_few {tokens : List Token} (place : 0 ≤ p.pos) (inside : p.pos ≤ p.text.length)
    (body : bodyTokens u pattern turns p result = .ok tokens) : tokens.length + p.pos ≤ result.length + p.text.length := by
  induction turns generalizing p result with
  | zero =>
    cases body
    omega
  | succ turns ih =>
    rw [bodyTokens] at body
    cases next : nextToken u pattern p with
    | error => simp [next,bind,Except.bind] at body
    | ok read =>
      simp only [next,bind,Except.bind] at body
      cases read with
      | none =>
        cases body
        omega
      | some read =>
        obtain ⟨onward,moved⟩ := nextToken_onward place inside next
        have length := congrArg List.length onward.text
        have more := ih (by omega) onward.inside body
        rw [List.length_append,List.length_singleton] at more
        omega

end Bodies

section Patterns
variable {options : Options} {rest : List Rune}

/-- The text of a pattern without the separator at its end. -/
def bodyText (pattern : List Rune) : List Rune := if pattern.getLast? = some '/' then pattern.dropLast else pattern

/-- A pattern that starts with a separator. -/
theorem parse_rooted (ordinary : Ordinary u) {pattern : List Rune} (trimmed : trim u pattern = '/' :: rest) :
    parse u options pattern = bodyTokens u ('/' :: rest) ((bodyText ('/' :: rest)).length + 1)
      ⟨0,bodyText ('/' :: rest),options.ignoreCase⟩ (baseTokens (trimBaseDir options.baseDir)) := by
  have place := At.start ('/' :: rest) options.ignoreCase
  have slash : RuneScanner.peek u ⟨0,'/' :: rest,options.ignoreCase⟩ 0 = '/' := place.cons_head (by decide) ordinary
  have skipped : skipSpaces u ('/' :: rest).length ⟨0,'/' :: rest,options.ignoreCase⟩ = ⟨0,'/' :: rest,options.ignoreCase⟩ := by
    rw [List.length_cons,skipSpaces,slash,(ordinary.kept '/' (by decide)).2.2]
    rfl
  have leading : leadingTokens u ('/' :: rest) (trimBaseDir options.baseDir) ⟨0,'/' :: rest,options.ignoreCase⟩ =
      baseTokens (trimBaseDir options.baseDir) := by
    rw [leadingTokens]
    simp only [slash,not_true,false_and,if_false,if_true,List.append_nil]
    split
    next => rfl
    next none =>
      have empty : trimBaseDir options.baseDir = [] := by
        by_contra some
        exact none ⟨some,List.cons_ne_nil _ _⟩
      rw [empty]
      rfl
  have cut : (if ('/' :: rest).getLast? = some '/' then
      (⟨0,('/' :: rest).dropLast,options.ignoreCase⟩ : RuneScanner) else ⟨0,'/' :: rest,options.ignoreCase⟩) =
      ⟨0,bodyText ('/' :: rest),options.ignoreCase⟩ := by
    rw [bodyText]
    split
    next => rfl
    next => rfl
  rw [parse,NewWildcardMatcher,trimmed]
  dsimp only
  rw [skipped,slash]
  have bare : ¬ ('/' : Rune) = '!' := by decide
  simp only [bare,if_false]
  rw [leading,cut]
  dsimp only
  cases bodyTokens u ('/' :: rest) ((bodyText ('/' :: rest)).length + 1) ⟨0,bodyText ('/' :: rest),options.ignoreCase⟩
      (baseTokens (trimBaseDir options.baseDir)) with
  | error => rfl
  | ok => rfl

theorem length_bodyText (pattern : List Rune) : (bodyText pattern).length ≤ pattern.length := by
  rw [bodyText]
  split
  next =>
    rw [List.length_dropLast]
    exact Nat.sub_le _ _
  next => exact Nat.le_refl _

theorem bodyText_eq {pattern : List Rune} (last : pattern.getLast? ≠ some '/') : bodyText pattern = pattern := if_neg last

/-- Nothing is cut off between a separator and a closing bracket. -/
theorem trim_closed (ordinary : Ordinary u) (l : List Rune) : trim u ('/' :: (l ++ [']'])) = '/' :: (l ++ [']']) := by
  rw [trim]
  split
  next =>
    rw [List.dropWhile_cons_of_neg (by rw [(ordinary.kept '/' (by decide)).2.2]; decide),← List.cons_append,List.reverse_append,
      List.reverse_singleton,List.singleton_append,
      List.dropWhile_cons_of_neg (by rw [(ordinary.kept ']' (by decide)).2.2]; decide),List.reverse_cons,List.reverse_reverse]
  next => rfl

/-- Behind a separator only runes at the end are cut off. -/
theorem trim_slash (ordinary : Ordinary u) (l : List Rune) : ∃ l', trim u ('/' :: l) = '/' :: l' ∧ l' <+: l := by
  rw [trim]
  split
  next =>
    rw [List.dropWhile_cons_of_neg (by rw [(ordinary.kept '/' (by decide)).2.2]; decide),List.reverse_cons]
    have kept : ['/'].dropWhile u.IsSpace = ['/'] := List.dropWhile_cons_of_neg (by rw [(ordinary.kept '/' (by decide)).2.2]; decide)
    have dropped : (l.reverse ++ ['/']).dropWhile u.IsSpace = l.reverse.dropWhile u.IsSpace ++ ['/'] := by
      rw [List.dropWhile_append]
      split
      next empty => rw [kept,List.isEmpty_iff.mp empty,List.nil_append]
      next => rfl
    refine ⟨(l.reverse.dropWhile u.IsSpace).reverse,by rw [dropped,List.reverse_append]; rfl,?_⟩
    rw [← List.reverse_suffix,List.reverse_reverse]
    exact List.dropWhile_suffix _
  next => exact ⟨l,rfl,List.prefix_rfl⟩

theorem Literal.last {ignoreCase : Bool} {l : List Rune} (literal : Literal u ignoreCase l) (nonempty : l ≠ []) :
    ('/' :: l).getLast? ≠ some '/' := by
  rw [List.getLast?_cons_of_ne_nil nonempty]
  intro last
  refine literal '/' (List.mem_of_getLast? last) ?_
  rw [fold_eq_slash.mpr rfl]
  decide

/-- The tokens of a separator and a literal prefix of which nothing is cut off. -/
theorem parse_literal (ordinary : Ordinary u) {l : List Rune} (literal : Literal u options.ignoreCase l) (nonempty : l ≠ [])
    (trimmed : trim u ('/' :: l) = '/' :: l) :
    parse u options ('/' :: l) =
      .ok (baseTokens (trimBaseDir options.baseDir) ++ .dirSep :: literalTokens u options.ignoreCase l) := by
  have place := At.start ('/' :: l) options.ignoreCase
  have behind : At (RuneScanner.advance u ⟨0,'/' :: l,options.ignoreCase⟩) (0 + 1) (l ++ []) := by
    rw [List.append_nil]
    exact place.advance (by decide)
  obtain ⟨p',end',-,run⟩ := bodyTokens_literal ('/' :: l) behind (by rw [advance_ignoreCase]; exact literal)
  rw [parse_rooted ordinary trimmed,bodyText_eq (literal.last nonempty),List.length_cons,bodyTokens_some (nextToken_slash ordinary place),run 1,
    bodyTokens_ended end',advance_ignoreCase,List.append_assoc]
  rfl

variable (options) in
/-- The tokens of a separator, a literal prefix and a sequence. -/
theorem parse_sequence (ordinary : Ordinary u) {l : List Rune} (literal : Literal u options.ignoreCase l) (s : Sequence) :
    ∃ p n result, At p n s.runes ∧ n = 1 + l.length ∧ p.ignoreCase = options.ignoreCase ∧
      result = baseTokens (trimBaseDir options.baseDir) ++ .dirSep :: literalTokens u options.ignoreCase l ∧
      parse u options ('/' :: (l ++ s.runes)) = bodyTokens u ('/' :: (l ++ s.runes)) (s.runes.length + 1) p result := by
  have place := At.start ('/' :: (l ++ s.runes)) options.ignoreCase
  have behind := place.advance (u := u) (by decide)
  obtain ⟨p',end',same,run⟩ := bodyTokens_literal ('/' :: (l ++ s.runes)) behind (by rw [advance_ignoreCase]; exact literal)
  refine ⟨p',0 + 1 + l.length,_,end',by omega,same.trans (advance_ignoreCase _),rfl,?_⟩
  have closed : l ++ s.runes = l ++ (s.opening ++ written s.items) ++ [']'] := by
    rw [Sequence.runes]
    simp
  have trimmed : trim u ('/' :: (l ++ s.runes)) = '/' :: (l ++ s.runes) := by
    rw [closed]
    exact trim_closed ordinary _
  have last : ('/' :: (l ++ s.runes)).getLast? ≠ some '/' := by
    rw [closed,← List.cons_append,List.getLast?_concat]
    decide
  rw [parse_rooted ordinary trimmed,bodyText_eq last,List.length_cons,List.length_append,
    show l.length + s.runes.length + 1 = l.length + (s.runes.length + 1) by omega,
    bodyTokens_some (nextToken_slash ordinary place),run,advance_ignoreCase,List.append_assoc]
  rfl

theorem nextToken_none {pattern : List Rune} {p : RuneScanner} (ended : nextToken u pattern p = .ok none) : p.peek u 0 = NUL := by
  by_contra proper
  rw [nextToken] at ended
  dsimp only [RuneScanner.read] at ended
  rw [if_neg proper] at ended
  split at ended
  next =>
    split at ended
    next => contradiction
    next => simp at ended
  next =>
    split at ended
    next => simp at ended
    next =>
      split at ended
      next => simp at ended
      next =>
        split at ended
        next => simp at ended
        next =>
          split at ended
          next =>
            cases items : sequence u pattern (p.advance u) with
            | error => simp [items,Except.map] at ended
            | ok => simp [items,Except.map] at ended
          next => simp at ended

theorem parse_placed (ordinary : Ordinary u) {l : List Rune} (literal : Literal u options.ignoreCase l) {s : Sequence}
    (formed : s.Formed u options.ignoreCase) (placed : s.Placed u options.ignoreCase (1 + l.length)) :
    parse u options ('/' :: (l ++ s.runes)) = .ok (baseTokens (trimBaseDir options.baseDir) ++
      .dirSep :: literalTokens u options.ignoreCase l ++ [s.token u options.ignoreCase]) := by
  obtain ⟨p,n,result,place,rfl,same,own,run⟩ := parse_sequence options ordinary literal s
  obtain ⟨p',end',read⟩ := nextToken_placed ('/' :: (l ++ s.runes)) ordinary place (same ▸ formed) (same ▸ placed)
  rw [run,bodyTokens_some read,length_runes,← Nat.add_assoc,bodyTokens_ended end',own,same]

theorem parse_misplaced (ordinary : Ordinary u) {l : List Rune} (literal : Literal u options.ignoreCase l) {s : Sequence}
    (formed : s.Formed u options.ignoreCase) (lost : ¬ s.Placed u options.ignoreCase (1 + l.length)) {tokens : List Token}
    (parsed : parse u options ('/' :: (l ++ s.runes)) = .ok tokens) :
    (baseTokens (trimBaseDir options.baseDir)).length + l.length + 2 < tokens.length := by
  obtain ⟨p,n,result,place,rfl,same,own,run⟩ := parse_sequence options ordinary literal s
  have size : result.length = (baseTokens (trimBaseDir options.baseDir)).length + l.length + 1 := by
    rw [own,List.length_append,List.length_cons,literalTokens,List.length_map,Nat.add_assoc]
  have long : ∃ m, s.runes.length = m + 2 := by
    have opens := opening_ne_nil (s := s)
    rw [length_runes]
    exact ⟨s.opening.length + (written s.items).length - 1,by omega⟩
  obtain ⟨m,long⟩ := long
  rw [run,long,bodyTokens] at parsed
  cases first : nextToken u ('/' :: (l ++ s.runes)) p with
  | error => simp [first,bind,Except.bind] at parsed
  | ok read =>
    obtain ⟨token,p',rfl,left⟩ := nextToken_misplaced ordinary place (same ▸ formed) (same ▸ lost) first
    simp only [first,bind,Except.bind] at parsed
    rw [bodyTokens] at parsed
    cases second : nextToken u ('/' :: (l ++ s.runes)) p' with
    | error => simp [second,bind,Except.bind] at parsed
    | ok read =>
      simp only [second,bind,Except.bind] at parsed
      cases read with
      | none => exact absurd (nextToken_none second) left
      | some read =>
        have adds := bodyTokens_adds parsed
        simp only [List.length_append,List.length_singleton,size] at adds
        omega

end Patterns

section Independence
variable {options : Options}

/-- A sequence is one token behind the separator and behind the prefix if its items are in the right places behind both. -/
theorem Independent_iff (ordinary : Ordinary u) {l : List Rune} (literal : Literal u options.ignoreCase l) {s : Sequence}
    (formed : s.Formed u options.ignoreCase) : Independent u options l s ↔
      trim u ('/' :: l) = '/' :: l ∧ s.Placed u options.ignoreCase 1 ∧ s.Placed u options.ignoreCase (1 + l.length) := by
  have none : Literal u options.ignoreCase [] := by simp [Literal]
  constructor
  · rintro ⟨token,alone,behind⟩
    have here : s.Placed u options.ignoreCase 1 := by
      by_contra lost
      have many := parse_misplaced ordinary none formed lost alone
      simp only [List.length_append,List.length_cons,List.length_nil] at many
      omega
    by_cases empty : l = []
    · subst empty
      refine ⟨?_,here,here⟩
      obtain ⟨l',trimmed,few⟩ := trim_slash ordinary []
      rw [trimmed,List.prefix_nil.mp few]
    obtain ⟨front,prefix',whole⟩ := behind empty
    obtain ⟨l',trimmed,few⟩ := trim_slash ordinary l
    have bound : front.length ≤ (baseTokens (trimBaseDir options.baseDir)).length + l'.length + 1 := by
      rw [parse_rooted ordinary trimmed] at prefix'
      have read := bodyTokens_few (Int.le_refl _) (by simp) prefix'
      have cut := length_bodyText ('/' :: l')
      rw [List.length_cons] at cut
      dsimp only at read
      omega
    have there : s.Placed u options.ignoreCase (1 + l.length) := by
      by_contra lost
      have many := parse_misplaced ordinary literal formed lost whole
      have shorter := few.length_le
      rw [List.length_append,List.length_singleton] at many
      omega
    refine ⟨?_,here,there⟩
    have sizes : (baseTokens (trimBaseDir options.baseDir)).length + (l.length + 1) = front.length := by
      have same := congrArg List.length (Except.ok.inj ((parse_placed ordinary literal formed there).symm.trans whole))
      simp [literalTokens] at same
      omega
    rw [trimmed,few.eq_of_length_le (by omega)]
  · rintro ⟨trimmed,here,there⟩
    refine ⟨s.token u options.ignoreCase,?_,fun nonempty => ?_⟩
    · have alone := parse_placed ordinary none formed here
      rw [List.nil_append,List.append_assoc] at alone
      exact alone
    · exact ⟨_,parse_literal ordinary literal nonempty trimmed,parse_placed ordinary literal formed there⟩

section Behind
variable {ignoreCase : Bool}

theorem At.behind (before rest : List Rune) : At ⟨before.length,before ++ rest,ignoreCase⟩ before.length rest :=
  ⟨rfl,by simp,List.drop_left⟩

/-- The rune before a scanner is the last of those it has passed. -/
theorem peek_last (before rest : List Rune) :
    RuneScanner.peek u ⟨before.length,before ++ rest,ignoreCase⟩ (-1) = fold u ignoreCase (before.getLast?.getD NUL) := by
  rw [RuneScanner.peek]
  dsimp only
  split
  next inside =>
    have place : ((before.length : Int) + -1).toNat = before.length - 1 := by omega
    rw [place,List.getD_eq_getElem?_getD,List.getElem?_append_left (by omega),List.getLast?_eq_getElem?]
  next outside =>
    have empty : before = [] := by
      rw [← List.length_eq_zero_iff]
      rw [List.length_append] at outside
      omega
    rw [empty]
    exact (fold_eq_NUL.mpr rfl).symm

theorem readBehind_sequence (ordinary : Ordinary u) {s : Sequence} (formed : s.Formed u ignoreCase) (before : List Rune) :
    readBehind u ignoreCase before s.runes = some (some (s.token u ignoreCase,[])) ↔ s.Placed u ignoreCase before.length := by
  have place : At ⟨before.length,before ++ s.runes,ignoreCase⟩ before.length s.runes := .behind before s.runes
  constructor
  · intro read
    by_contra lost
    rw [readBehind] at read
    cases next : nextToken u (before ++ s.runes) ⟨before.length,before ++ s.runes,ignoreCase⟩ with
    | error =>
      rw [next] at read
      contradiction
    | ok own =>
      obtain ⟨token,p',rfl,left⟩ := nextToken_misplaced ordinary place formed lost next
      obtain ⟨onward,moved⟩ := nextToken_onward place.bounds.1 place.bounds.2 next
      rw [next] at read
      simp only [Except.toOption,Option.map_some,Option.some.injEq,Prod.mk.injEq] at read
      have inside := onward.inside
      have pos := Int.le_trans place.bounds.1 onward.pos
      have empty := read.2
      rw [RuneScanner.rest,List.drop_eq_nil_iff] at empty
      refine left ?_
      rw [RuneScanner.peek,if_neg]
      rintro ⟨few,-⟩
      omega
  · intro placed
    obtain ⟨p',end',read⟩ := nextToken_placed (before ++ s.runes) ordinary place formed placed
    rw [readBehind,read]
    simp only [Except.toOption,Option.map_some,end'.rest_eq]

/-- Other elements are read in the same way wherever they stand. A star only needs the same rune before it. -/
theorem readBehind_eq (before before' rest : List Rune) (other : fold u ignoreCase (rest.getD 0 NUL) ≠ '[')
    (star : fold u ignoreCase (rest.getD 0 NUL) = '*' → before.getLast? = before'.getLast?) :
    readBehind u ignoreCase before rest = readBehind u ignoreCase before' rest := by
  have further (before before' : List Rune) (order : before.length ≤ before'.length)
      (star : fold u ignoreCase (rest.getD 0 NUL) = '*' → before.getLast? = before'.getLast?) :
      readBehind u ignoreCase before rest = readBehind u ignoreCase before' rest := by
    have place : At ⟨before.length,before ++ rest,ignoreCase⟩ before.length rest := .behind before rest
    have place' : At ⟨before'.length,before' ++ rest,ignoreCase⟩ (before.length + (before'.length - before.length)) rest := by
      rw [Nat.add_sub_cancel' order]
      exact .behind before' rest
    have twin : Twin (before'.length - before.length) ⟨before.length,before ++ rest,ignoreCase⟩
        ⟨before'.length,before' ++ rest,ignoreCase⟩ := ⟨rfl,before.length,rest,place,place'⟩
    have head : RuneScanner.peek u ⟨before.length,before ++ rest,ignoreCase⟩ 0 = fold u ignoreCase (rest.getD 0 NUL) := place.peek 0
    have alike := nextToken_twin (before ++ rest) (before' ++ rest) twin
      (fun bracket => absurd (head.symm.trans bracket) other) fun own => by
        have proper : RuneScanner.peek u ⟨before.length,before ++ rest,ignoreCase⟩ 0 ≠ NUL := by
          rw [own]
          decide
        refine stars_kind twin.advance ?_
        rw [peek_advance _ _ proper,peek_advance _ _ (by rwa [twin.head])]
        rw [show (-2 : Int) + 1 = -1 from rfl,peek_last,peek_last,star (head.symm.trans own)]
    rw [readBehind,readBehind]
    generalize nextToken u (before ++ rest) ⟨before.length,before ++ rest,ignoreCase⟩ = read at alike ⊢
    generalize nextToken u (before' ++ rest) ⟨before'.length,before' ++ rest,ignoreCase⟩ = read' at alike ⊢
    cases alike with
    | failed => rfl
    | read same =>
      cases same with
      | none => rfl
      | some behind =>
        obtain ⟨n,left,here,there⟩ := behind.places
        simp only [Except.toOption,Option.map_some,here.rest_eq,there.rest_eq]
  rcases Nat.le_total before.length before'.length with order | order
  · exact further before before' order star
  · exact (further before' before order fun own => (star own).symm).symm

end Behind

/-- Patterns are read independently of what is before their elements, up to sequences with classes or escaped brackets in places
where these are taken for something else. Every pattern is read to its end. -/
theorem parsing_independent_iff (ordinary : Ordinary u) (options : Options) :
    (∀ l (s : Sequence), Literal u options.ignoreCase l → s.Formed u options.ignoreCase → (Independent u options l s ↔
      trim u ('/' :: l) = '/' :: l ∧ s.Placed u options.ignoreCase 1 ∧ s.Placed u options.ignoreCase (1 + l.length))) ∧
    (∀ before (s : Sequence), s.Formed u options.ignoreCase →
      (readBehind u options.ignoreCase before s.runes = some (some (s.token u options.ignoreCase,[])) ↔
        s.Placed u options.ignoreCase before.length)) ∧
    (∀ before before' rest, fold u options.ignoreCase (rest.getD 0 NUL) ≠ '[' →
      (fold u options.ignoreCase (rest.getD 0 NUL) = '*' → before.getLast? = before'.getLast?) →
      readBehind u options.ignoreCase before rest = readBehind u options.ignoreCase before' rest) ∧
    ∀ turns pattern, pattern.length < turns →
      checkedMatcher u turns pattern options = .returns (NewWildcardMatcher u pattern options) := by
  refine ⟨fun l s literal formed => Independent_iff ordinary literal formed,fun before s formed => readBehind_sequence ordinary formed before,
    fun before before' rest other star => readBehind_eq before before' rest other star,fun turns pattern enough => ?_⟩
  exact checkedMatcher_returns ⟨(ordinary.kept '/' (by decide)).2.2,(ordinary.kept NUL (by decide)).2.2⟩ pattern options enough

/-- The sequence of one class. -/
def digits : Sequence := ⟨false,[.ofClass "digit".toList .digit]⟩

theorem ordinary_ascii : Ordinary ASCII := by
  have all : (special.all fun c => decide (ASCII.IsUpper c = false ∧ ASCII.ToLower c = c ∧ ASCII.IsSpace c = false)) = true := by
    decide +kernel
  exact ⟨fun c member => of_decide_eq_true (List.all_eq_true.mp all c member)⟩

theorem literal_ascii : Literal ASCII false "abcdefg".toList := by
  have all : ("abcdefg".toList.all fun c => decide (fold ASCII false c ∉ ['\\','?','/','*','[',NUL])) = true := by decide +kernel
  exact fun c member => of_decide_eq_true (List.all_eq_true.mp all c member)

theorem formed_digits : digits.Formed ASCII false := by
  refine ⟨⟨?_,trivial⟩,fun _ => by decide +kernel⟩
  show className _ = some _
  decide +kernel

theorem independent_behind_one : Independent ASCII ⟨false,[]⟩ ['a'] digits ∧
    checkedMatcher ASCII 9 "/[a-f]".toList ⟨false,[]⟩ = .returns (NewWildcardMatcher ASCII "/[a-f]".toList ⟨false,[]⟩) := by
  obtain ⟨placed,-,-,returns⟩ := parsing_independent_iff ordinary_ascii ⟨false,[]⟩
  refine ⟨(placed ['a'] digits (fun c member => literal_ascii c (by simp_all)) formed_digits).mpr ⟨by decide +kernel,⟨?_,trivial⟩,⟨?_,trivial⟩⟩,?_⟩
  · show 1 + 1 < _
    decide
  · show 1 + 1 + 1 < _
    decide
  · exact returns 9 _ (by decide)

/-- Behind seven runes the class of digits is not found. -/
theorem class_lost_behind_prefix :
    ¬ ∀ l (s : Sequence), Literal ASCII false l → s.Formed ASCII false → Independent ASCII ⟨false,[]⟩ l s := by
  intro all
  obtain ⟨token,alone,behind⟩ := all "abcdefg".toList digits literal_ascii formed_digits
  obtain ⟨front,first,second⟩ := behind (by decide)
  have own : parse ASCII ⟨false,[]⟩ ('/' :: digits.runes) = .ok [.dirSep,.seq [.ofClass .digit false] false] := by decide +kernel
  have read : parse ASCII ⟨false,[]⟩ ('/' :: "abcdefg".toList) = .ok (.dirSep :: "abcdefg".toList.map .rune) := by decide +kernel
  rw [own] at alone
  rw [read] at first
  cases Except.ok.inj first
  have third : parse ASCII ⟨false,[]⟩ ('/' :: ("abcdefg".toList ++ digits.runes)) =
      .ok (.dirSep :: "abcdefg".toList.map .rune ++ [.seq ("[:digit:".toList.map .rune) false,.rune ']']) := by decide +kernel
  rw [third] at second
  have sizes := congrArg List.length (Except.ok.inj second)
  simp at sizes

end Independence

end Vbe.Wildcard
